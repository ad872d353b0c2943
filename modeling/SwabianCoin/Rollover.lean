import SwabianCoin.HashChain
import SwabianCoin.SupplyCap

/-!
# The end of an epoch is not missed

An epoch ends when `num_minings_in_epoch` is exactly `max_num_creations` after a block. A block with
more creations than are left would jump over this number, and the difference of the two, which is
taken in unsigned arithmetic, would wrap. Blocks from outside are checked; the own block is not. It
is kept small by dropping one creation whenever one too many has come in, both while collecting and
while blocks of others are merged.

The invariant is that the counter stays in its range (`CounterOk`), and that the own block fits into
the epoch from the moment it is emptied to the moment it is added (`RolloverInv`).
-/

namespace SwabianCoin

open Machine

variable {crypto : CryptoHelper}

/-! ## The counter -/

/-- The counter of the epoch is between `0` and `max_num_creations`. -/
structure CounterOk (miningState : MiningState) : Prop where
  nonneg : 0 ≤ miningState.numMiningsInEpoch.toInt
  le_max : miningState.numMiningsInEpoch.toInt ≤ maxNumCreations.toNat

/-- There is room in the epoch. -/
def CounterBelow (miningState : MiningState) : Prop :=
  miningState.numMiningsInEpoch.toInt < maxNumCreations.toNat

namespace CounterOk

variable {miningState : MiningState}

theorem exists_ofNat (h : CounterOk miningState) :
    ∃ minings ≤ maxNumCreations.toNat, miningState.numMiningsInEpoch = Int32.ofNat minings := by
  have hnonneg := h.nonneg
  have hmax := h.le_max
  have hcast : (miningState.numMiningsInEpoch.toInt.toNat : ℤ) =
      miningState.numMiningsInEpoch.toInt := Int.toNat_of_nonneg hnonneg
  have hbound : maxNumCreations.toNat = 1000 := rfl
  refine ⟨miningState.numMiningsInEpoch.toInt.toNat, by omega, ?_⟩
  apply Int32.toInt.inj
  rw [Int32.toInt_ofNat_of_lt (by omega), hcast]

theorem of_ofNat {minings : Nat} (hle : minings ≤ maxNumCreations.toNat)
    (h : miningState.numMiningsInEpoch = Int32.ofNat minings) : CounterOk miningState := by
  have hbound : maxNumCreations.toNat = 1000 := rfl
  constructor <;> rw [h, Int32.toInt_ofNat_of_lt (by omega)] <;> omega

theorem of_zero (h : miningState.numMiningsInEpoch = 0) :
    CounterOk miningState ∧ CounterBelow miningState := by
  refine ⟨⟨?_, ?_⟩, ?_⟩
  · rw [h]
    decide
  · rw [h]
    decide
  · unfold CounterBelow
    rw [h]
    decide

theorem creationsLeft_eq (h : CounterOk miningState) :
    (creationsLeft miningState : ℤ) =
      maxNumCreations.toNat - miningState.numMiningsInEpoch.toInt := by
  obtain ⟨minings, hle, hcount⟩ := h.exists_ofNat
  have hbound : maxNumCreations.toNat = 1000 := rfl
  have hnat : (UInt32.ofNat minings).toNat = minings := by
    rw [UInt32.toNat_ofNat']
    omega
  rw [creationsLeft, hcount, Int32.toUInt32_ofNat', Int32.toInt_ofNat_of_lt (by omega),
    UInt32.toNat_sub, hnat]
  omega

end CounterOk

/-- **A block that fits.** The counter stays in its range, and it does not stay at its end. -/
theorem counter_addBlock (crypto : CryptoHelper) {bc : Blockchain}
    (h : CounterOk bc.getMiningState) {block : CollectionBlock}
    (hfits : block.creations.size ≤ creationsLeft bc.getMiningState) :
    CounterOk (bc.addBlock crypto block).getMiningState ∧
      CounterBelow (bc.addBlock crypto block).getMiningState := by
  obtain ⟨minings, hle, hcount⟩ := h.exists_ofNat
  have hleft := h.creationsLeft_eq
  have hbound : maxNumCreations.toNat = 1000 := rfl
  rw [hcount, Int32.toInt_ofNat_of_lt (by omega)] at hleft
  have hentered (uid : BlockUid) :
      (enterBlock crypto bc.currentBaseline uid block).miningState.numMiningsInEpoch =
        Int32.ofNat (minings + block.creations.size) := by
    show bc.getMiningState.numMiningsInEpoch + _ = _
    rw [hcount, Int32.ofNat_add]
  simp only [Blockchain.addBlock, Blockchain.getMiningState]
  rcases updateCurrentBaseline_cases crypto bc.currentBaseline bc.cache.nextFreeBlockId block with
    ⟨heq, hcounted⟩ | ⟨heq, -⟩ <;> rw [heq]
  · have hne : minings + block.creations.size ≠ 1000 := by
      intro hfull
      rw [hentered, hfull] at hcounted
      exact hcounted rfl
    refine ⟨.of_ofNat (by omega) (hentered _), ?_⟩
    rw [CounterBelow, hentered, Int32.toInt_ofNat_of_lt (by omega)]
    omega
  · exact CounterOk.of_zero rfl

/-- The last epoch of a root is at most full. -/
theorem CounterOk.of_valid {root : BaselineBlock}
    (hvalid : validateBlockWithoutContext crypto root = true) : CounterOk root.miningState := by
  have hsizes := (epochsChecked_of_valid hvalid).sizes
  have hcount : root.miningState.numMiningsInEpoch =
      Int32.ofNat (root.dataValueHashes.getLastD []).length := by
    simp only [validateBlockWithoutContext, Bool.and_eq_true, beq_iff_eq] at hvalid
    exact hvalid.2
  refine .of_ofNat ?_ hcount
  cases hlast : root.dataValueHashes.getLast? with
  | none =>
    rw [List.getLastD_eq_getLast?, hlast]
    exact Nat.zero_le _
  | some hashes =>
    rw [List.getLastD_eq_getLast?, hlast]
    rw [List.getLast?_eq_getElem?] at hlast
    exact (length_of_epochSizesOk hsizes hlast).1

theorem CounterOk.initEmptyChain (crypto : CryptoHelper) (bc : Blockchain) :
    CounterOk (bc.initEmptyChain crypto).getMiningState := by
  have hzero : (bc.initEmptyChain crypto).getMiningState.numMiningsInEpoch = 0 := rfl
  exact (CounterOk.of_zero hzero).1

theorem CounterOk.setRootBlock {root : BaselineBlock} (bc : Blockchain)
    (hvalid : validateBlockWithoutContext crypto root = true) :
    CounterOk (bc.setRootBlock root).getMiningState := by
  have hroot := CounterOk.of_valid hvalid
  rw [Blockchain.setRootBlock, if_neg (validateBlockWithoutContext_header hvalid).2]
  exact hroot

theorem CounterOk.sameBalances {bc bc' : Blockchain} (h : CounterOk bc.getMiningState)
    (hs : Blockchain.SameBalances bc bc') : CounterOk bc'.getMiningState := by
  rw [Blockchain.getMiningState, hs.miningState]
  exact h

theorem fetchClosed_counterOk (crypto : CryptoHelper) :
    FetchClosed crypto fun bc => CounterOk bc.getMiningState where
  initEmptyChain := CounterOk.initEmptyChain crypto
  setRootBlock bc _ hvalid := CounterOk.setRootBlock bc hvalid
  sameBalances _ _ h hs := h.sameBalances hs
  addBlock _ _ h hacc := (counter_addBlock crypto h hacc.contents.choose_spec.2.numCreations).1
  cacheThread _ h := h

/-! ## The own block -/

theorem size_getRidOfDuplicates_le (creations : OrdMap Hash CreationSubBlock) (dataValue : Bytes) :
    (getRidOfDuplicates creations dataValue).size ≤ creations.size :=
  (dropLaterDuplicates_sublist dataValue false creations.entries).length_le

theorem size_admitCreation_le {limit : Nat} {creations : OrdMap Hash CreationSubBlock}
    (h : creations.size ≤ limit) (key : Hash) (subBlock : CreationSubBlock) :
    (admitCreation limit creations key subBlock).size ≤ limit := by
  apply size_eraseIfLarger_le
  refine (size_getRidOfDuplicates_le _ _).trans ((OrdMap.size_insert_le _ _ _).trans ?_)
  exact Nat.succ_le_succ h

namespace BlockchainManager

variable (crypto : CryptoHelper) (m : BlockchainManager)

/-- The own block fits into the epoch. -/
def Fits : Prop := m.newBlock.creations.size ≤ creationsLeft m.blockchain.getMiningState

variable {m}

theorem Fits.congr {m' : BlockchainManager} (h : m.Fits)
    (hcreations : m'.newBlock.creations = m.newBlock.creations)
    (hstate : m'.blockchain.getMiningState = m.blockchain.getMiningState) : m'.Fits := by
  unfold Fits
  rw [hcreations, hstate]
  exact h

theorem Fits.of_empty (h : m.newBlock.creations.size = 0) : m.Fits := by
  unfold Fits
  rw [h]
  exact Nat.zero_le _

end BlockchainManager

/-- The counter is in its range, and the own block fits while it is being built. -/
structure RolloverInv (m : BlockchainManager) : Prop where
  counter : CounterOk m.blockchain.getMiningState
  fits : m.currentState = some .collect ∨ m.currentState = some .introduceBlock → m.Fits

namespace RolloverInv

variable {m m' : BlockchainManager}

theorem of_fits (hcounter : CounterOk m.blockchain.getMiningState) (hfits : m.Fits) :
    RolloverInv m :=
  ⟨hcounter, fun _ => hfits⟩

theorem sameNegotiation (h : RolloverInv m) (hs : SameNegotiation m m') : RolloverInv m' := by
  obtain ⟨hchain, hnew, -, hstate⟩ := hs
  constructor
  · rw [hchain]
    exact h.counter
  · intro hbuilding
    rw [hstate] at hbuilding
    exact (h.fits hbuilding).congr (by rw [hnew]) (by rw [hchain])

theorem collectCreation (h : RolloverInv m) (hfits : m.Fits) (signature : Signature) :
    RolloverInv (m.collectCreation crypto signature) ∧
      (m.collectCreation crypto signature).Fits := by
  have hboth (hsize : (m.collectCreation crypto signature).Fits) :
      RolloverInv (m.collectCreation crypto signature) ∧
        (m.collectCreation crypto signature).Fits := by
    refine ⟨of_fits ?_ hsize, hsize⟩
    rw [(m.collectCreation_same crypto signature).1]
    exact h.counter
  apply hboth
  unfold BlockchainManager.collectCreation
  split
  · dsimp only
    split_ifs
    · refine size_eraseIfLarger_le ((OrdMap.size_insert_le _ _ _).trans ?_)
      exact Nat.succ_le_succ hfits
    · exact hfits
    · exact hfits
  · exact hfits

theorem collectTransaction (h : RolloverInv m) (hfits : m.Fits) (signature : Signature) :
    RolloverInv (m.collectTransaction crypto signature) := by
  refine of_fits ?_ ?_
  · rw [(m.collectTransaction_same crypto signature).1]
    exact h.counter
  · unfold BlockchainManager.collectTransaction
    split
    · dsimp only
      split_ifs <;> exact hfits.congr rfl rfl
    · exact hfits

theorem mergeBlock (h : RolloverInv m) (hfits : m.Fits) (block : CollectionBlock) :
    RolloverInv (m.mergeBlock crypto block).1 := by
  refine of_fits h.counter ?_
  exact Ballot.admitted_offerAll
    (P := fun creations => creations.size ≤ creationsLeft m.blockchain.getMiningState) _ _
    block.creations (fun _ element _ hsize => size_admitCreation_le hsize element.1 element.2) hfits

theorem considerBlock (h : RolloverInv m) (hfits : m.Fits) (peer : PeerId)
    (block : CollectionBlock) : RolloverInv (m.considerBlock crypto peer block).1 := by
  have hsame := m.judge_sameBalances crypto block
  have hjudgedFits : (m.judge crypto block).2.Fits := hfits.congr rfl hsame.miningState
  have hjudged : RolloverInv (m.judge crypto block).2 :=
    of_fits (h.counter.sameBalances hsame) hjudgedFits
  rcases BlockchainManager.considerBlock_cases crypto m peer block with
    ⟨-, heq⟩ | ⟨-, -, -, heq⟩ | ⟨-, -, -, heq⟩ | ⟨-, -, heq⟩ <;> rw [heq]
  · exact h
  · exact hjudged.mergeBlock hjudgedFits block
  · exact hjudged
  · exact hjudged.sameNegotiation (BlockchainManager.reportViolation_same _ _ _)

theorem stays (h : RolloverInv m) {event : ManagerEvent} (hstays : event.StaysInState) :
    RolloverInv (m.step crypto event) := by
  rcases BlockchainManager.step_stays_cases crypto hstays with
    hsame | ⟨hstate, _, _, heq⟩ | ⟨hstate, now, heq⟩ | ⟨hstate, peer, block, hsame⟩
  · exact h.sameNegotiation hsame
  · rw [heq]
    obtain ⟨hcollected, hfits⟩ := h.collectCreation (h.fits (Or.inl hstate)) _
    exact hcollected.collectTransaction hfits _
  · have hfits := h.fits (Or.inr hstate)
    rw [heq, BlockchainManager.cycleIntroduceBlock]
    split_ifs
    · exact of_fits h.counter (hfits.congr rfl rfl)
    · exact h
  · exact (h.considerBlock (h.fits (Or.inr hstate)) peer block).sameNegotiation hsame

/-- The own block is added without being validated; it fits. -/
theorem exitIntroduceBlock (crypto : CryptoHelper) (h : RolloverInv m)
    (hstate : m.currentState = some .introduceBlock) :
    CounterOk (m.exitIntroduceBlock crypto).1.blockchain.getMiningState ∧
      CounterBelow (m.exitIntroduceBlock crypto).1.blockchain.getMiningState := by
  rw [m.exitIntroduceBlock_blockchain crypto]
  exact counter_addBlock crypto h.counter (h.fits (Or.inr hstate))

theorem enterIntroduceBlock (hcounter : CounterOk m.blockchain.getMiningState) (hfits : m.Fits)
    (now : BlockchainTime) : RolloverInv (m.enterState crypto .introduceBlock now).1 := by
  refine of_fits hcounter ?_
  have hcreations : (m.enterState crypto .introduceBlock now).1.newBlock.creations =
      m.newBlock.creations := by
    simp only [BlockchainManager.enterState, BlockchainManager.enterIntroduceBlock]
    split <;> rfl
  exact hfits.congr hcreations rfl

/-- **Moving on to the next state.** After fetching, the own block is empty. -/
theorem advance (h : RolloverInv m) (hidle : m.currentState = none → m.newBlock.creations.size = 0)
    (now : BlockchainTime) : RolloverInv (m.step crypto (.advance now)) := by
  have hstart (hcurrent : m.currentState = none ∨ m.currentState = some .collect)
      (hfits : m.Fits) : RolloverInv (m.step crypto (.advance now)) := by
    unfold BlockchainManager.step
    rw [(m.act_advance_start crypto now hcurrent).2]
    exact enterIntroduceBlock h.counter hfits now
  cases hcurrent : m.currentState with
  | none => exact hstart (Or.inl hcurrent) (.of_empty (hidle hcurrent))
  | some state =>
    cases state with
    | collect => exact hstart (Or.inr hcurrent) (h.fits (Or.inl hcurrent))
    | introduceBlock =>
      have hentered (state : CycleState) :
          CounterOk ((m.exitIntroduceBlock crypto).1.enterState crypto state
            now).1.blockchain.getMiningState := by
        rw [BlockchainManager.enterState_miningState]
        exact (h.exitIntroduceBlock crypto hcurrent).1
      obtain ⟨hnext, hact⟩ := m.act_advance_introduceBlock crypto now hcurrent
      unfold BlockchainManager.step
      rw [hact]
      rcases hnext with heq | heq <;> rw [heq]
      · exact of_fits (hentered .collect) (.of_empty rfl)
      · exact ⟨hentered .introduceBaseline, fun hstate => absurd hstate (by simp)⟩
    | introduceBaseline =>
      unfold BlockchainManager.step
      rw [m.act_advance_introduceBaseline crypto now hcurrent]
      exact of_fits h.counter (.of_empty rfl)

end RolloverInv

/-! ## The whole node -/

/-- The chain after each block that `processFinishedAgents` adds. -/
def chainsProcessing (crypto : CryptoHelper) :
    Blockchain → List (BlockUid × BlockFetchAgent CollectionBlock) → List Blockchain
  | _, [] => []
  | bc, (_, agent) :: rest =>
    match agent.receivedBlock with
    | none => []
    | some (_, block) =>
      let result := bc.validateBlock crypto block
      if result.1 then
        let added := result.2.addBlock crypto block
        added :: chainsProcessing crypto added rest
      else chainsProcessing crypto result.2 rest

/-- The chain after each collection block that is added during an event. -/
def FetchingNode.chainsAfterAdd (crypto : CryptoHelper) (node : FetchingNode) :
    NodeEvent → List Blockchain
  | .fetch (.fetchBlocksThread _ _) =>
    match node.state.thread with
    | .loopHead _ =>
      if node.state.running then
        chainsProcessing crypto node.base.blockchain node.state.blockFetchAgentMap.entries
      else []
    | _ => []
  | .manager (.advance _) =>
    if node.Left ∧ node.base.currentState = some .introduceBlock then
      [(node.base.exitIntroduceBlock crypto).1.blockchain]
    else []
  | _ => []

/-- The last of these chains is the one `processFinishedAgents` leaves, up to empty wallets. -/
theorem chainsProcessing_getLastD (entries : List (BlockUid × BlockFetchAgent CollectionBlock))
    (bc : Blockchain) (node : FetchingNode) (hbc : node.base.blockchain = bc) :
    Blockchain.SameBalances ((chainsProcessing crypto bc entries).getLastD bc)
      (node.processAgents crypto entries).1.base.blockchain := by
  induction entries generalizing bc node with
  | nil =>
    subst hbc
    exact Blockchain.SameBalances.refl _
  | cons first rest ih =>
    subst hbc
    obtain ⟨uid, agent⟩ := first
    rw [chainsProcessing, FetchingNode.processAgents]
    cases agent.receivedBlock with
    | none => exact Blockchain.SameBalances.refl _
    | some received =>
      obtain ⟨peer, block⟩ := received
      have hjudged := Blockchain.validateBlock_snd crypto node.base.blockchain block
      dsimp only
      split_ifs with hvalid
      · rw [List.getLastD_cons]
        exact ih _ _ rfl
      · refine Blockchain.SameBalances.trans ?_
          (ih (node.base.blockchain.validateBlock crypto block).2 _ rfl)
        cases chainsProcessing crypto (node.base.blockchain.validateBlock crypto block).2 rest with
        | nil => exact hjudged
        | cons added later => exact Blockchain.SameBalances.refl _

/-- Every block that is processed was checked for its number of creations. -/
theorem counterBelow_of_mem_chainsProcessing
    (entries : List (BlockUid × BlockFetchAgent CollectionBlock)) {bc : Blockchain}
    (h : CounterOk bc.getMiningState) :
    ∀ added ∈ chainsProcessing crypto bc entries, CounterBelow added.getMiningState := by
  induction entries generalizing bc with
  | nil => exact fun _ hmem => absurd hmem List.not_mem_nil
  | cons first rest ih =>
    obtain ⟨uid, agent⟩ := first
    rw [chainsProcessing]
    cases agent.receivedBlock with
    | none => exact fun _ hmem => absurd hmem List.not_mem_nil
    | some received =>
      obtain ⟨peer, block⟩ := received
      have hjudged := Blockchain.validateBlock_snd crypto bc block
      have hleft := h.sameBalances hjudged
      dsimp only
      split_ifs with hvalid
      · have hacc : bc.Accepts crypto block := hvalid
        obtain ⟨_, -, hc⟩ := (hjudged.accepts.2 hacc).contents
        obtain ⟨hnext, hbelow⟩ := counter_addBlock crypto hleft hc.numCreations
        intro added hmem
        rcases List.mem_cons.1 hmem with rfl | hlater
        · exact hbelow
        · exact ih hnext added hlater
      · exact ih hleft

/-- The counter and the own block are in order. When the node has fetched a chain and not yet done
anything else, the own block is empty. -/
structure NodeRolloverInv (node : FetchingNode) : Prop where
  manager : RolloverInv node.base
  fetching : ¬ node.Left → node.base.currentState = none
  idle : node.state.running = false → node.base.currentState = none →
    node.base.newBlock.creations.size = 0

namespace NodeRolloverInv

variable {node : FetchingNode}

theorem construct (crypto : CryptoHelper) (ourPublicKey : PublicKeyPEM) (before : Blockchain) :
    NodeRolloverInv (FetchingNode.construct crypto ourPublicKey before) :=
  ⟨⟨CounterOk.initEmptyChain crypto before, fun hstate => absurd hstate (by
    simp [FetchingNode.construct])⟩, fun _ => rfl, fun _ _ => rfl⟩

theorem enterFetchBlockchain (crypto : CryptoHelper) (node : FetchingNode) :
    NodeRolloverInv (node.enterFetchBlockchain crypto) :=
  ⟨⟨CounterOk.initEmptyChain crypto node.base.blockchain, fun hstate => absurd hstate (by
    simp [FetchingNode.enterFetchBlockchain, FetchingNode.onEnter])⟩, fun _ => rfl,
    fun hrunning => absurd hrunning (by
      simp [FetchingNode.enterFetchBlockchain, FetchingNode.onEnter])⟩

theorem fetch (h : NodeRolloverInv node) {event : FetchEvent} (henter : event ≠ .onEnter)
    (hinside : ∀ base, event ≠ .elsewhere base) : NodeRolloverInv (node.step crypto event) := by
  by_cases hleft : node.Left
  · rcases FetchingNode.step_of_left hleft henter hinside with heq | heq <;> rw [heq]
    · exact h
    · refine ⟨⟨h.manager.counter, fun hstate => ?_⟩, fun hnot => absurd hleft hnot, h.idle⟩
      exact (h.manager.fits hstate).congr rfl rfl
  · have hnone := h.fetching hleft
    have hstate := node.step_currentState crypto henter hinside
    refine ⟨⟨?_, ?_⟩, fun _ => hstate.trans hnone, ?_⟩
    · exact (fetchClosed_counterOk crypto).step_inside h.manager.counter event hinside
    · rw [hstate, hnone]
      exact fun hbuilding => absurd hbuilding (by simp)
    · intro hrunning _
      rcases node.step_own crypto henter hinside with hsame | ⟨now, -, heq⟩
      · rw [hsame.newBlock]
        exact h.idle (hsame.running ▸ hrunning) hnone
      · rw [heq]
        rfl

theorem stays (h : NodeRolloverInv node) {event : ManagerEvent} (hstays : event.StaysInState) :
    NodeRolloverInv { node with base := node.base.step crypto event } := by
  have hstate := node.base.step_currentState crypto hstays
  refine ⟨h.manager.stays hstays, fun hleft => hstate.trans (h.fetching hleft), ?_⟩
  intro hrunning hnone
  rw [hstate] at hnone
  rcases BlockchainManager.step_stays_cases crypto hstays with
    hsame | ⟨hcollect, -⟩ | ⟨hintroduce, -⟩ | ⟨hintroduce, -⟩
  · show (node.base.step crypto event).newBlock.creations.size = 0
    rw [hsame.newBlock]
    exact h.idle hrunning hnone
  · rw [hnone] at hcollect
    cases hcollect
  · rw [hnone] at hintroduce
    cases hintroduce
  · rw [hnone] at hintroduce
    cases hintroduce

theorem advance (h : NodeRolloverInv node) (hleft : node.Left) (now : BlockchainTime) :
    NodeRolloverInv { node with base := node.base.step crypto (.advance now) } := by
  refine ⟨h.manager.advance (h.idle hleft.1) now, fun hnot => absurd hleft hnot, ?_⟩
  intro _ hnone
  have hstate := node.base.step_advance_currentState crypto now
  rw [show (node.base.step crypto (.advance now)).currentState = none from hnone] at hstate
  cases hstate

/-- **One event.** -/
theorem nodeStep (h : NodeRolloverInv node) (event : NodeEvent) :
    NodeRolloverInv (node.nodeStep crypto event) := by
  rcases node.nodeStep_cases crypto event with
    ⟨heq, -⟩ | ⟨-, -, heq, -⟩ | ⟨fetchEvent, -, henter, hinside, heq, -⟩ |
      ⟨managerEvent, -, hmay, heq, -⟩ <;> rw [heq]
  · exact h
  · exact enterFetchBlockchain crypto node
  · exact h.fetch henter hinside
  · rcases managerEvent.advance_or_staysInState with ⟨now, rfl⟩ | hstays
    · exact h.advance (hmay.resolve_right id) now
    · exact h.stays hstays

/-- No block that is added leaves a full epoch behind. -/
theorem counterBelow (h : NodeRolloverInv node) (event : NodeEvent) :
    ∀ added ∈ node.chainsAfterAdd crypto event, CounterBelow added.getMiningState := by
  unfold FetchingNode.chainsAfterAdd
  split
  · split
    · split_ifs
      · exact counterBelow_of_mem_chainsProcessing _ h.manager.counter
      · exact fun _ hmem => absurd hmem List.not_mem_nil
    · exact fun _ hmem => absurd hmem List.not_mem_nil
  · split_ifs with hexits
    · intro added hmem
      rw [List.mem_singleton.1 hmem]
      exact (h.manager.exitIntroduceBlock crypto hexits.2).2
    · exact fun _ hmem => absurd hmem List.not_mem_nil
  · exact fun _ hmem => absurd hmem List.not_mem_nil

end NodeRolloverInv

/-- **The end of an epoch is never missed.** In every run of a node, whatever its peers send and
whatever it finds, the counter is between `0` and `max_num_creations`, so that their difference does
not wrap, and it is below `max_num_creations` after every block that is added, validated or not. -/
theorem FetchingNode.rollover_not_skipped (crypto : CryptoHelper) (ourPublicKey : PublicKeyPEM)
    (before : Blockchain) (events : List NodeEvent) :
    Run.AllStates (FetchingNode.nodeStep crypto)
        (fun node => CounterOk node.base.blockchain.getMiningState ∧
          (creationsLeft node.base.blockchain.getMiningState : ℤ) = maxNumCreations.toNat -
            node.base.blockchain.getMiningState.numMiningsInEpoch.toInt)
        (construct crypto ourPublicKey before) events ∧
      Run.AllSteps (FetchingNode.nodeStep crypto)
        (fun node event => ∀ added ∈ node.chainsAfterAdd crypto event,
          CounterBelow added.getMiningState)
        (construct crypto ourPublicKey before) events := by
  have hinv : Run.AllStates (FetchingNode.nodeStep crypto) NodeRolloverInv
      (construct crypto ourPublicKey before) events :=
    Run.AllStates.of_steps (P := fun _ _ => True) (fun _ event h _ => h.nodeStep event)
      (NodeRolloverInv.construct crypto ourPublicKey before)
      (Run.AllSteps.of_forall_mem fun _ _ _ => trivial)
  exact ⟨hinv.mono fun _ h => ⟨h.manager.counter, h.manager.counter.creationsLeft_eq⟩,
    hinv.allSteps.mono fun _ event h => h.counterBelow event⟩

end SwabianCoin
