import SwabianCoin.Reset
import SwabianCoin.UpdateStateThread

/-!
# The id of the root

The root of a chain is installed in three places. `initEmptyChain` takes the id `1`.
`establishBaseline` takes the id after the newest block, and `updateStateThread` has looked whether
this one is on the grid of baselines; that the time for it has come nobody asks. `fetchBaseline`
takes whatever id a peer has sent: `validateBlockWithoutContext` looks at it only to refuse `0`.

The root stays where it should be exactly as long as the last two do not go wrong and the clock is
not set back.
-/

namespace SwabianCoin

/-! ## Genuine ids -/

/-- The id is on the grid of baselines, and it is at most the next one by the clock. -/
structure GenuineRoot (now : BlockchainTime) (uid : BlockUid) : Prop where
  grid : isBaselineBlock uid = true
  due : uid ≤ getBlockId now + 1

theorem genuineRoot_iff {now : BlockchainTime} {uid : BlockUid} :
    GenuineRoot now uid ↔ isBaselineBlock uid = true ∧ uid ≤ getBlockId now + 1 :=
  ⟨fun h => ⟨h.grid, h.due⟩, fun h => ⟨h.1, h.2⟩⟩

theorem toNat_getBlockId_lt (now : BlockchainTime) : (getBlockId now).toNat + 1 < 2 ^ 64 := by
  have hdiv : (now / cycleLengthMs).toNat = now.toNat / 120000 := UInt64.toNat_div ..
  have hlt := now.toNat_lt
  have hle : getBlockId now ≤ now / cycleLengthMs := UInt64.sub_le (min_le_left _ _)
  rw [UInt64.le_iff_toNat_le, hdiv] at hle
  omega

theorem genuineRoot_one (now : BlockchainTime) : GenuineRoot now 1 := by
  refine ⟨by decide, ?_⟩
  have hlt := toNat_getBlockId_lt now
  have hone : (1 : UInt64).toNat = 1 := rfl
  rw [UInt64.le_iff_toNat_le, UInt64.toNat_add, hone, Nat.mod_eq_of_lt hlt]
  omega

/-! ## Ids without a gap -/

namespace Blockchain

variable {crypto : CryptoHelper} {bc bc' : Blockchain}

/-- The next free id is the one after the newest block. -/
def NextFollows (bc : Blockchain) : Prop := bc.cache.nextFreeBlockId = bc.getNewestBlockId + 1

/-- The root is the same, and ids go on being given out without a gap. -/
structure SameRoot (bc bc' : Blockchain) : Prop where
  root : bc'.getRootBlockId = bc.getRootBlockId
  next : bc.NextFollows → bc'.NextFollows

namespace SameRoot

theorem refl (bc : Blockchain) : SameRoot bc bc := ⟨rfl, id⟩

theorem trans {bc'' : Blockchain} (h : SameRoot bc bc') (h' : SameRoot bc' bc'') :
    SameRoot bc bc'' :=
  ⟨h'.root.trans h.root, h'.next ∘ h.next⟩

theorem of_sameBalances (h : SameBalances bc bc') : SameRoot bc bc' := by
  constructor
  · rw [getRootBlockId, h.metaData]
    rfl
  · intro hnext
    rw [NextFollows, getNewestBlockId, h.cache, h.metaData]
    exact hnext

theorem addBlock (crypto : CryptoHelper) (bc : Blockchain) (block : CollectionBlock) :
    SameRoot bc (bc.addBlock crypto block) :=
  ⟨rfl, fun _ => rfl⟩

theorem cacheThread (bc : Blockchain) :
    SameRoot bc { bc with cache := bc.cache.cacheThread } := by
  refine ⟨rfl, fun hnext => ?_⟩
  rw [NextFollows, bc.cache.nextFreeBlockId_cacheThread]
  exact hnext

end SameRoot

theorem root_setRootBlock (bc : Blockchain) {block : BaselineBlock}
    (h0 : block.header.blockUid ≠ 0) :
    (bc.setRootBlock block).getRootBlockId = block.header.blockUid ∧
      (bc.setRootBlock block).NextFollows := by
  rw [setRootBlock, if_neg h0]
  exact ⟨rfl, rfl⟩

theorem root_initEmptyChain (crypto : CryptoHelper) (bc : Blockchain) :
    (bc.initEmptyChain crypto).getRootBlockId = 1 ∧ (bc.initEmptyChain crypto).NextFollows :=
  bc.root_setRootBlock (show (1 : UInt64) ≠ 0 by decide)

/-- After a block, the baseline that can be established has the id after it. -/
theorem root_establishBaseline (hnext : bc.NextFollows) (block : CollectionBlock) :
    ((bc.addBlock crypto block).establishBaseline crypto).getRootBlockId =
        bc.getNewestBlockId + 2 ∧
      ((bc.addBlock crypto block).establishBaseline crypto).NextFollows :=
  ⟨baselineUid_addBlock crypto hnext block, rfl⟩

end Blockchain

/-! ## Fetching -/

namespace FetchingNode

variable {node : FetchingNode}

/-- The baseline that the next round of `fetchBaseline` installs. -/
def acceptedBaseline (crypto : CryptoHelper) (node : FetchingNode) : Option BaselineBlock :=
  match node.state.thread, node.receivedBaseline with
  | .fetchingBaseline, some (_, block) =>
    if node.state.running &&
        decide (node.base.blockchain.getNewestBlockId ≤ block.header.blockUid) &&
        validateBlockWithoutContext crypto block then some block
    else none
  | _, _ => none

/-- The baseline that an event installs. -/
def installedBaseline (crypto : CryptoHelper) (node : FetchingNode) :
    NodeEvent → Option BaselineBlock
  | .fetch (.fetchBlocksThread _ _) => node.acceptedBaseline crypto
  | _ => none

theorem uid_ne_zero_of_acceptedBaseline {crypto : CryptoHelper} {block : BaselineBlock}
    (h : node.acceptedBaseline crypto = some block) : block.header.blockUid ≠ 0 := by
  unfold acceptedBaseline at h
  split at h
  · split_ifs at h with hvalid
    cases h
    simp only [Bool.and_eq_true] at hvalid
    exact (validateBlockWithoutContext_header hvalid.2).2
  · cases h

/-- **A step of the fetching thread** installs the baseline it accepts, or keeps the root. -/
theorem fetchBlocksThread_root (crypto : CryptoHelper) (node : FetchingNode) (now : BlockchainTime)
    (numConnectedPeers : Nat) :
    (∃ block, node.acceptedBaseline crypto = some block ∧
      (node.fetchBlocksThread crypto now numConnectedPeers).1.base.blockchain =
        node.base.blockchain.setRootBlock block) ∨
    node.acceptedBaseline crypto = none ∧ node.base.blockchain.SameRoot
      (node.fetchBlocksThread crypto now numConnectedPeers).1.base.blockchain := by
  have hsame := Blockchain.SameRoot.refl node.base.blockchain
  unfold fetchBlocksThread acceptedBaseline
  cases node.state.thread with
  | joined => exact Or.inr ⟨rfl, hsame⟩
  | waitingForPeers =>
    dsimp only
    split_ifs <;> exact Or.inr ⟨rfl, hsame⟩
  | callingFetchBaseline => exact Or.inr ⟨rfl, hsame⟩
  | fetchingBaseline =>
    simp only [cycleFetchBaseline]
    -- Only here a baseline is installed.
    cases hrunning : node.state.running with
    | false =>
      right
      cases node.receivedBaseline <;> exact ⟨rfl, hsame⟩
    | true =>
      cases node.receivedBaseline with
      | none => exact Or.inr ⟨rfl, hsame⟩
      | some received =>
        obtain ⟨peer, block⟩ := received
        by_cases hnewer : node.base.blockchain.getNewestBlockId ≤ block.header.blockUid
        · cases hvalid : validateBlockWithoutContext crypto block with
          | true => exact Or.inl ⟨block, by simp [hnewer, hvalid], by simp [hnewer, hvalid]⟩
          | false =>
            refine Or.inr ⟨by simp [hvalid], ?_⟩
            simp only [if_pos hnewer, hvalid]
            exact hsame
        · refine Or.inr ⟨by simp [hnewer], ?_⟩
          simp only [if_neg hnewer]
          exact hsame
  | loopHead nextIdToFetch =>
    right
    dsimp only
    split_ifs
    · refine ⟨rfl, ?_⟩
      exact processAgents_chain (I := node.base.blockchain.SameRoot)
        (fun _ _ h hs => h.trans (.of_sameBalances hs))
        (fun _ block h _ => h.trans (.addBlock crypto _ block)) _ node hsame
    · exact ⟨rfl, hsame⟩
  | refilling nextIdToFetch => exact Or.inr ⟨rfl, hsame⟩
  | comparing nextIdToFetch =>
    dsimp only
    split_ifs <;> exact Or.inr ⟨rfl, hsame⟩

theorem step_sameRoot (crypto : CryptoHelper) (node : FetchingNode) {event : FetchEvent}
    (henter : event ≠ .onEnter) (hinside : ∀ base, event ≠ .elsewhere base)
    (hthread : ∀ now numConnectedPeers, event ≠ .fetchBlocksThread now numConnectedPeers) :
    node.base.blockchain.SameRoot (node.step crypto event).base.blockchain := by
  have hacts := node.acts_step crypto event
  generalize node.step crypto event = next at hacts ⊢
  cases hacts with
  | ignored => exact .refl _
  | onEnter => exact absurd rfl henter
  | onCycle now => exact .refl _
  | onExit now => exact .refl _
  | baselineBlockReceived peer block reply =>
    rw [(node.baselineBlockReceived_same peer block reply).1]
    exact .refl _
  | collectionBlockReceived peer block reply =>
    rw [(node.collectionBlockReceived_same peer block reply).1]
    exact .refl _
  | fetchBlocksThread now numConnectedPeers => exact absurd rfl (hthread now numConnectedPeers)
  | cacheThread => exact .cacheThread _
  | elsewhere base => exact absurd rfl (hinside base)

/-- **What happens to a node inside a state.** -/
theorem nodeStep_root (crypto : CryptoHelper) (node : FetchingNode) {event : NodeEvent}
    (h : event.keepsState = true) :
    (∃ block, node.installedBaseline crypto event = some block ∧ block.header.blockUid ≠ 0 ∧
      (node.nodeStep crypto event).base.blockchain = node.base.blockchain.setRootBlock block) ∨
    node.installedBaseline crypto event = none ∧
      node.base.blockchain.SameRoot (node.nodeStep crypto event).base.blockchain := by
  cases event with
  | enterFetchBlockchain => cases h
  | fetch event =>
    cases event with
    | onEnter => cases h
    | onExit now => cases h
    | elsewhere base => cases h
    | fetchBlocksThread now numConnectedPeers =>
      rcases node.fetchBlocksThread_root crypto now numConnectedPeers with
        ⟨block, haccepted, hchain⟩ | hsame
      · exact Or.inl ⟨block, haccepted, uid_ne_zero_of_acceptedBaseline haccepted, hchain⟩
      · exact Or.inr hsame
    | onCycle now => exact Or.inr ⟨rfl, node.step_sameRoot crypto (by simp) (by simp) (by simp)⟩
    | baselineBlockReceived peer block reply =>
      exact Or.inr ⟨rfl, node.step_sameRoot crypto (by simp) (by simp) (by simp)⟩
    | collectionBlockReceived peer block reply =>
      exact Or.inr ⟨rfl, node.step_sameRoot crypto (by simp) (by simp) (by simp)⟩
    | cacheThread => exact Or.inr ⟨rfl, node.step_sameRoot crypto (by simp) (by simp) (by simp)⟩
  | manager event =>
    have hstays : event.StaysInState := of_decide_eq_true h
    have hstep : node.nodeStep crypto (.manager event) = _ := if_pos (Or.inr hstays)
    rw [hstep]
    exact Or.inr ⟨rfl, .of_sameBalances (node.base.step_sameBalances crypto hstays)⟩

end FetchingNode

/-! ## Changes of state -/

namespace BlockchainManager

variable {crypto : CryptoHelper} {m : BlockchainManager}

theorem exitState_sameRoot (crypto : CryptoHelper) (m : BlockchainManager) :
    m.blockchain.SameRoot (m.exitState crypto).1.blockchain := by
  unfold exitState
  split
  · rw [m.exitIntroduceBlock_blockchain crypto]
    exact .addBlock crypto m.blockchain _
  · exact .refl _

/-- Only `IntroduceBaseline` begins with a new root. -/
theorem setState_sameRoot (crypto : CryptoHelper) (m : BlockchainManager) {state : CycleState}
    (hne : state ≠ .introduceBaseline) (now : BlockchainTime) :
    m.blockchain.SameRoot (m.setState crypto state now).1.blockchain := by
  unfold setState
  split_ifs
  · exact .refl _
  · have hexit := m.exitState_sameRoot crypto
    cases state with
    | collect => exact hexit
    | introduceBlock => exact hexit
    | introduceBaseline => exact absurd rfl hne

theorem setState_introduceBaseline_root (hnext : m.blockchain.NextFollows)
    (hstate : m.currentState = some .introduceBlock) (now : BlockchainTime) :
    (m.setState crypto .introduceBaseline now).1.blockchain.getRootBlockId =
        m.blockchain.getNewestBlockId + 2 ∧
      (m.setState crypto .introduceBaseline now).1.blockchain.NextFollows := by
  have hchain : (m.setState crypto .introduceBaseline now).1.blockchain =
      (m.exitIntroduceBlock crypto).1.blockchain.establishBaseline crypto := by
    rw [setState_of_introduceBlock crypto now hstate (by decide)]
    rfl
  rw [hchain, m.exitIntroduceBlock_blockchain crypto]
  exact Blockchain.root_establishBaseline hnext _

end BlockchainManager

/-! ## Runs of the thread -/

namespace UpdateStateThread

variable {crypto : CryptoHelper} {t : UpdateStateThread}

/-- The root of the chain is genuine. -/
def RootGenuine (t : UpdateStateThread) : Prop :=
  GenuineRoot t.now t.node.base.blockchain.getRootBlockId

/-- A baseline is established in time, a fetched one is genuine, and the clock is not set back to
before the root. -/
def InstallsGenuine (crypto : CryptoHelper) (t : UpdateStateThread) : ThreadEvent → Prop
  | .step slow => t.EntersIntroduceBaseline (.step slow) →
      t.node.base.blockchain.getNewestBlockId + 2 ≤ getBlockId t.now + 1
  | .node event => ∀ block, t.node.installedBaseline crypto (event t.now) = some block →
      GenuineRoot t.now block.header.blockUid
  | .clock now => t.node.base.blockchain.getRootBlockId ≤ getBlockId now + 1
  | _ => True

/-- The thread is in its place, and ids are given out without a gap. -/
structure RootInv (t : UpdateStateThread) : Prop where
  position : t.PositionOk
  next : t.node.base.blockchain.NextFollows

theorem RootGenuine.of_sameRoot {t' : UpdateStateThread} (h : t.RootGenuine) (hnow : t'.now = t.now)
    (hsame : t.node.base.blockchain.SameRoot t'.node.base.blockchain) : t'.RootGenuine := by
  rw [RootGenuine, hnow, hsame.root]
  exact h

theorem threadStep_now (crypto : CryptoHelper) (t : UpdateStateThread) (slow : Bool) :
    (t.threadStep crypto slow).now = t.now := by
  have hsteps := t.steps_threadStep crypto slow
  generalize t.threadStep crypto slow = next at hsteps ⊢
  cases hsteps <;> rfl

/-- Without the change to `IntroduceBaseline` a step keeps the root or begins an empty chain. -/
theorem threadStep_root (crypto : CryptoHelper) (t : UpdateStateThread) {slow : Bool}
    (hnot : ¬ t.EntersIntroduceBaseline (.step slow)) :
    t.node.base.blockchain.SameRoot (t.threadStep crypto slow).node.base.blockchain ∨
      (t.threadStep crypto slow).node.base.blockchain =
        t.node.base.blockchain.initEmptyChain crypto := by
  have hsame := Blockchain.SameRoot.refl t.node.base.blockchain
  have hsteps := t.steps_threadStep crypto slow
  generalize t.threadStep crypto slow = next at hsteps ⊢
  cases hsteps with
  | waits => exact Or.inl hsame
  | fetchInitially hposition => exact Or.inr rfl
  | skipFetching hposition => exact Or.inl hsame
  | fetchedInitially hposition => exact Or.inl hsame
  | start hposition => exact Or.inl hsame
  | leaveFetchBlockchain hposition hrunning => exact Or.inl hsame
  | introduceBlock hat => exact Or.inl (t.node.base.setState_sameRoot crypto (by decide) t.now)
  | introduceBaseline hposition hdue hgrid => exact absurd ⟨⟨hposition, hdue⟩, hgrid⟩ hnot
  | collectAfterBlock hposition hdue hgrid =>
    exact Or.inl (t.node.base.setState_sameRoot crypto (by decide) t.now)
  | collectAfterBaseline hposition hdue =>
    exact Or.inl (t.node.base.setState_sameRoot crypto (by decide) t.now)
  | resynchronise hposition hdue => exact Or.inr rfl
  | again hposition hdue hsync => exact Or.inl hsame
  | fetched hposition => exact Or.inl hsame

/-- The fetching thread can always take a step. -/
theorem allows_of_installedBaseline (t : UpdateStateThread) {event : NodeEvent}
    {block : BaselineBlock} (h : t.node.installedBaseline crypto event = some block) :
    t.allows event = true := by
  unfold FetchingNode.installedBaseline at h
  split at h
  · rfl
  · cases h

namespace RootInv

theorem construct (crypto : CryptoHelper) (ourPublicKey : PublicKeyPEM)
    (folder : OrdMap BlockUid Block) (initialFetch : Bool) (now : BlockchainTime) :
    (UpdateStateThread.construct ourPublicKey (.construct crypto folder) initialFetch
      now).RootInv :=
  ⟨PositionOk.construct _ _ _ _, (Blockchain.root_initEmptyChain crypto _).2⟩

/-- **A step of the thread** keeps a genuine root exactly if a baseline is established in time. -/
theorem threadStep (h : t.RootInv) (hroot : t.RootGenuine) (slow : Bool) :
    ((t.threadStep crypto slow).RootGenuine ↔ t.InstallsGenuine crypto (.step slow)) ∧
      (t.threadStep crypto slow).node.base.blockchain.NextFollows := by
  have hnow := t.threadStep_now crypto slow
  by_cases henters : t.EntersIntroduceBaseline (.step slow)
  · have hstate := (h.position.introducingBlock henters.1.1).2
    have hstep : (t.threadStep crypto slow).node.base.blockchain =
        (t.node.base.setState crypto .introduceBaseline t.now).1.blockchain := by
      rw [threadStep_introduceBaseline henters]
      rfl
    obtain ⟨hnew, hnext⟩ := BlockchainManager.setState_introduceBaseline_root h.next hstate t.now
    rw [RootGenuine, hnow, hstep, hnew, genuineRoot_iff]
    refine ⟨⟨fun hgenuine _ => hgenuine.2, fun hdue => ⟨henters.2, hdue henters⟩⟩, hnext⟩
  · have hinstalls : t.InstallsGenuine crypto (.step slow) := fun h => absurd h henters
    rcases t.threadStep_root crypto henters with hsame | hempty
    · exact ⟨iff_of_true (hroot.of_sameRoot hnow hsame) hinstalls, hsame.next h.next⟩
    · obtain ⟨hone, hnext⟩ := t.node.base.blockchain.root_initEmptyChain crypto
      rw [RootGenuine, hempty, hone]
      exact ⟨iff_of_true (genuineRoot_one _) hinstalls, hnext⟩

theorem stopStep (h : t.RootInv) (hroot : t.RootGenuine) :
    (t.stopStep crypto).RootGenuine ∧ (t.stopStep crypto).node.base.blockchain.NextFollows := by
  unfold UpdateStateThread.stopStep
  split_ifs
  · exact ⟨hroot, h.next⟩
  · have hsame := t.node.base.exitState_sameRoot crypto
    exact ⟨hroot.of_sameRoot rfl hsame, hsame.next h.next⟩

/-- **What happens to the node** keeps a genuine root exactly if a fetched one is genuine. -/
theorem actNode (h : t.RootInv) (hroot : t.RootGenuine) (event : BlockchainTime → NodeEvent) :
    ((t.act crypto (.node event)).RootGenuine ↔ t.InstallsGenuine crypto (.node event)) ∧
      (t.act crypto (.node event)).node.base.blockchain.NextFollows := by
  simp only [UpdateStateThread.act]
  split_ifs with hallows
  · rcases t.node.nodeStep_root crypto (Bool.and_eq_true_iff.1 hallows).1 with
      ⟨block, hinstalled, h0, hchain⟩ | ⟨hnone, hsame⟩
    · obtain ⟨hid, hnext⟩ := t.node.base.blockchain.root_setRootBlock h0
      have hroots : _ = block.header.blockUid :=
        (congrArg Blockchain.getRootBlockId hchain).trans hid
      refine ⟨?_, by rw [hchain]; exact hnext⟩
      rw [RootGenuine, hroots]
      constructor
      · intro hgenuine other hother
        rw [hinstalled, Option.some.injEq] at hother
        exact hother ▸ hgenuine
      · exact fun hall => hall block hinstalled
    · refine ⟨iff_of_true (hroot.of_sameRoot rfl hsame) ?_, hsame.next h.next⟩
      intro block hinstalled
      rw [hnone] at hinstalled
      cases hinstalled
  · refine ⟨iff_of_true hroot fun block hinstalled => ?_, h.next⟩
    exact absurd (t.allows_of_installedBaseline hinstalled) hallows

/-- **One event.** -/
theorem act_iff (h : t.RootInv) (hroot : t.RootGenuine) (event : ThreadEvent) :
    ((t.act crypto event).RootGenuine ↔ t.InstallsGenuine crypto event) ∧
      (t.act crypto event).node.base.blockchain.NextFollows := by
  cases event with
  | step slow => exact h.threadStep hroot slow
  | stop =>
    simp only [UpdateStateThread.act]
    split_ifs
    · exact ⟨iff_of_true (h.stopStep hroot).1 trivial, (h.stopStep hroot).2⟩
    · exact ⟨iff_of_true hroot trivial, h.next⟩
  | node event => exact h.actNode hroot event
  | pauseMiner => exact ⟨iff_of_true hroot trivial, h.next⟩
  | resumeMiner => exact ⟨iff_of_true hroot trivial, h.next⟩
  | clock now => exact ⟨⟨fun hgenuine => hgenuine.due, fun hdue => ⟨hroot.grid, hdue⟩⟩, h.next⟩

end RootInv

/-- **When the root is genuine.** In a run of the thread from an empty chain the root is genuine in
every state exactly if every baseline is established in time, every fetched one is genuine, and the
clock is never set back to before the root. -/
theorem rootGenuine_iff_installsGenuine (crypto : CryptoHelper) (ourPublicKey : PublicKeyPEM)
    (folder : OrdMap BlockUid Block) (initialFetch : Bool) (now : BlockchainTime)
    (events : List ThreadEvent) :
    Run.AllStates (act crypto) RootGenuine
        (construct ourPublicKey (.construct crypto folder) initialFetch now) events ↔
      Run.AllSteps (act crypto) (InstallsGenuine crypto)
        (construct ourPublicKey (.construct crypto folder) initialFetch now) events := by
  refine Run.AllStates.iff_allSteps_with (J := RootInv) (P := fun _ _ => True) ?_
    (RootInv.construct crypto ourPublicKey folder initialFetch now) ?_
    (Run.AllSteps.of_forall_mem fun _ _ _ => trivial)
  · intro t event h hroot _
    obtain ⟨hiff, hnext⟩ : (_ ↔ t.InstallsGenuine crypto event) ∧ _ := h.act_iff hroot event
    exact ⟨hiff, fun _ => ⟨h.position.act event, hnext⟩⟩
  · have hone := (Blockchain.root_initEmptyChain crypto { cache := { disk := folder } }).1
    show GenuineRoot now _
    rw [show (construct ourPublicKey (.construct crypto folder) initialFetch
      now).node.base.blockchain.getRootBlockId = 1 from hone]
    exact genuineRoot_one now

end UpdateStateThread

/-- A peer answers with a baseline between two of the grid, and it becomes the root. -/
theorem foreign_id_becomes_root :
    ¬ ∀ (crypto : CryptoHelper) (ourPublicKey : PublicKeyPEM) (folder : OrdMap BlockUid Block)
        (initialFetch : Bool) (now : BlockchainTime) (events : List ThreadEvent),
      Run.AllStates (UpdateStateThread.act crypto) UpdateStateThread.RootGenuine
        (.construct ourPublicKey (.construct crypto folder) initialFetch now) events := by
  intro h
  have hrun := h .sample Sample.keyC ∅ true 1547241605000
    (Sample.fetchChain (Sample.emptyRoot 719) [])
  exact absurd hrun.last.grid (by decide +kernel)

end SwabianCoin
