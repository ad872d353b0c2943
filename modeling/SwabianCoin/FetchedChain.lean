import SwabianCoin.ChainRun
import SwabianCoin.FetchBlockchain

/-!
# The chain while it is fetched

Whatever peers send, the thread changes the chain in few ways: it starts with an empty chain, sets
a root that passed `validateBlockWithoutContext`, judges blocks and adds those that pass. A
property that survives these (`FetchClosed`) holds of the chain as long as there is a thread. The
first such property is `TipOk`.
-/

namespace SwabianCoin

variable {crypto : CryptoHelper} {I : Blockchain → Prop}

/-- A property of chains that no step of the thread destroys. -/
structure FetchClosed (crypto : CryptoHelper) (I : Blockchain → Prop) : Prop where
  initEmptyChain : ∀ bc : Blockchain, I (bc.initEmptyChain crypto)
  setRootBlock : ∀ (bc : Blockchain) (block : BaselineBlock),
    validateBlockWithoutContext crypto block = true → I (bc.setRootBlock block)
  sameBalances : ∀ bc bc' : Blockchain, I bc → Blockchain.SameBalances bc bc' → I bc'
  addBlock : ∀ (bc : Blockchain) (block : CollectionBlock),
    I bc → bc.Accepts crypto block → I (bc.addBlock crypto block)
  cacheThread : ∀ bc : Blockchain, I bc → I { bc with cache := bc.cache.cacheThread }

theorem fetchClosed_tipOk (crypto : CryptoHelper) : FetchClosed crypto TipOk where
  initEmptyChain := TipOk.initEmptyChain crypto
  setRootBlock _ _ hvalid :=
    TipOk.setRootBlock (validateBlockWithoutContext_header hvalid).2
      (validateBlockWithoutContext_header hvalid).1
  sameBalances _ _ h hs := h.sameBalances hs
  addBlock _ _ h hacc := h.addBlock hacc
  cacheThread _ h := h.cacheThread

namespace FetchingNode

/-- **Processing judges blocks and adds those that pass.** -/
theorem processAgents_chain
    (hsame : ∀ bc bc' : Blockchain, I bc → Blockchain.SameBalances bc bc' → I bc')
    (hadd : ∀ (bc : Blockchain) (block : CollectionBlock),
      I bc → bc.Accepts crypto block → I (bc.addBlock crypto block))
    (entries : List (BlockUid × BlockFetchAgent CollectionBlock)) (node : FetchingNode)
    (h : I node.base.blockchain) : I (node.processAgents crypto entries).1.base.blockchain := by
  induction entries generalizing node with
  | nil => exact h
  | cons first rest ih =>
    obtain ⟨uid, agent⟩ := first
    rw [processAgents]
    cases hreceived : agent.receivedBlock with
    | none => exact h
    | some received =>
      obtain ⟨peer, block⟩ := received
      have hjudged := Blockchain.validateBlock_snd crypto node.base.blockchain block
      have hleft := hsame _ _ h hjudged
      dsimp only
      split_ifs with hvalid
      · have hacc : node.base.blockchain.Accepts crypto block := hvalid
        exact ih _ (hadd _ _ hleft (hjudged.accepts.2 hacc))
      · exact ih _ hleft

/-- Only `onEnter` starts the thread. -/
theorem step_joined {node : FetchingNode} (h : node.state.thread = .joined) {event : FetchEvent}
    (hother : event ≠ .onEnter) : (node.step crypto event).state.thread = .joined := by
  have hacts := node.acts_step crypto event
  generalize node.step crypto event = next at hacts ⊢
  cases hacts with
  | ignored => exact h
  | onEnter => exact absurd rfl hother
  | onCycle now => exact h
  | onExit now => exact h
  | baselineBlockReceived peer block reply =>
    exact (node.baselineBlockReceived_same peer block reply).2.1.trans h
  | collectionBlockReceived peer block reply =>
    exact (node.collectionBlockReceived_same peer block reply).2.trans h
  | fetchBlocksThread now numConnectedPeers =>
    unfold fetchBlocksThread
    rw [h]
    exact h
  | cacheThread => exact h
  | elsewhere base => exact h

end FetchingNode

namespace FetchClosed

variable {node : FetchingNode}

theorem processFinishedAgents (hI : FetchClosed crypto I) (h : I node.base.blockchain) :
    I (node.processFinishedAgents crypto).1.base.blockchain :=
  FetchingNode.processAgents_chain hI.sameBalances hI.addBlock _ node h

theorem cycleFetchBaseline (hI : FetchClosed crypto I) (h : I node.base.blockchain)
    (now : BlockchainTime) : I (node.cycleFetchBaseline crypto now).1.base.blockchain := by
  unfold FetchingNode.cycleFetchBaseline
  split_ifs
  · split
    · exact h
    · split_ifs with hnewer hvalid
      · exact hI.setRootBlock _ _ hvalid
      · exact h
      · exact h
  · exact h

theorem fetchBlocksThread (hI : FetchClosed crypto I) (h : I node.base.blockchain)
    (now : BlockchainTime) (numConnectedPeers : Nat) :
    I (node.fetchBlocksThread crypto now numConnectedPeers).1.base.blockchain := by
  unfold FetchingNode.fetchBlocksThread
  cases node.state.thread with
  | joined => exact h
  | waitingForPeers =>
    dsimp only
    split_ifs <;> exact h
  | callingFetchBaseline => exact h
  | fetchingBaseline => exact hI.cycleFetchBaseline h now
  | loopHead nextIdToFetch =>
    dsimp only
    split_ifs
    · exact hI.processFinishedAgents h
    · exact h
  | refilling nextIdToFetch => exact h
  | comparing nextIdToFetch =>
    dsimp only
    split_ifs <;> exact h

/-- **One step**, while the node does nothing elsewhere. -/
theorem step_inside (hI : FetchClosed crypto I) (h : I node.base.blockchain) (event : FetchEvent)
    (hinside : ∀ base, event ≠ .elsewhere base) :
    I (node.step crypto event).base.blockchain := by
  have hacts := node.acts_step crypto event
  generalize node.step crypto event = next at hacts ⊢
  cases hacts with
  | ignored => exact h
  | onEnter => exact hI.initEmptyChain _
  | onCycle now => exact h
  | onExit now => exact h
  | baselineBlockReceived peer block reply =>
    rw [(node.baselineBlockReceived_same peer block reply).1]
    exact h
  | collectionBlockReceived peer block reply =>
    rw [(node.collectionBlockReceived_same peer block reply).1]
    exact h
  | fetchBlocksThread now numConnectedPeers => exact hI.fetchBlocksThread h now numConnectedPeers
  | cacheThread => exact hI.cacheThread _ h
  | elsewhere base => exact absurd rfl (hinside base)

/-- **One step.** While there is no thread, anything may happen to the chain; entering the state
sets it right. -/
theorem step (hI : FetchClosed crypto I) (event : FetchEvent)
    (h : node.state.thread ≠ .joined → I node.base.blockchain) :
    (node.step crypto event).state.thread ≠ .joined →
      I (node.step crypto event).base.blockchain := by
  intro hthread
  by_cases hjoined : node.state.thread = .joined
  · have henter : event = .onEnter := by
      by_contra hother
      exact hthread (node.step_joined hjoined hother)
    subst henter
    have hacts := node.acts_step crypto .onEnter
    generalize node.step crypto .onEnter = next at hacts hthread ⊢
    cases hacts with
    | ignored => exact absurd hjoined hthread
    | onEnter => exact hI.initEmptyChain _
  · by_cases helsewhere : ∃ base, event = .elsewhere base
    · obtain ⟨base, rfl⟩ := helsewhere
      have hacts := node.acts_step crypto (.elsewhere base)
      generalize node.step crypto (.elsewhere base) = next at hacts ⊢
      cases hacts with
      | ignored => exact h hjoined
      -- There is a thread, so the node is not elsewhere.
      | elsewhere _ hleft => exact absurd hleft.2 hjoined
    · exact hI.step_inside (h hjoined) event fun base heq => helsewhere ⟨base, heq⟩

end FetchClosed

end SwabianCoin
