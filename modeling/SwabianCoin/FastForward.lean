import SwabianCoin.FetchedChain
import SwabianCoin.FetchedIds

/-!
# Fast-forward

When the network has written a new baseline, it no longer has the blocks before it, and a node
that still fetches those should ask for the baseline instead. The thread tests for this with
`getNextBaselineBlock` of the next id to fetch. The cursor stops on the id of a baseline, though,
and the function gives the baseline *after* it. As long as the node waits for the blocks before
such an id, the test ignores the baseline at the cursor (`WaitsOnBaseline`). This is the only way
to miss one.
-/

namespace SwabianCoin

open Machine

variable {crypto : CryptoHelper}

namespace FetchingNode

/-- If the network has a baseline that this node has not reached, the test for a fast-forward
succeeds. -/
def NoticesBaselines (node : FetchingNode) : Prop :=
  ∀ nextIdToFetch ∈ node.state.thread.nextIdToFetch,
    ∀ globalBlockchainNewestBlockId b : BlockUid, isBaselineBlock b = true →
      node.base.blockchain.getNewestBlockId < b → b ≤ globalBlockchainNewestBlockId →
        getNextBaselineBlock nextIdToFetch ≤ globalBlockchainNewestBlockId

/-- The cursor is at the id of a baseline that this node has not reached and that is not the last
one there is. -/
def WaitsOnBaseline (node : FetchingNode) : Prop :=
  ∃ nextIdToFetch ∈ node.state.thread.nextIdToFetch, isBaselineBlock nextIdToFetch = true ∧
    node.base.blockchain.getNewestBlockId < nextIdToFetch ∧ nextIdToFetch.toNat + 720 < 2 ^ 64

end FetchingNode

/-! ## The cursor -/

/-- The cursor has passed no baseline after the newest block. -/
def NonePassed (newest nextIdToFetch : BlockUid) : Prop :=
  ∀ b, isBaselineBlock b = true → newest < b → nextIdToFetch - 1 < b

namespace NonePassed

variable {newest newest' nextIdToFetch : BlockUid}

theorem mono (h : NonePassed newest nextIdToFetch) (hle : newest ≤ newest') :
    NonePassed newest' nextIdToFetch :=
  fun b hb hlt => h b hb (lt_of_le_of_lt hle hlt)

/-- The cursor moves on from an id that is not that of a baseline. -/
theorem succ (h : NonePassed newest nextIdToFetch)
    (hnot : ¬ isBaselineBlock nextIdToFetch = true) : NonePassed newest (nextIdToFetch + 1) := by
  intro b hb hlt
  have hbefore := h b hb hlt
  have hne : nextIdToFetch ≠ b := fun heq => hnot (heq ▸ hb)
  have hne' : nextIdToFetch.toNat ≠ b.toNat := fun heq => hne (UInt64.toNat_inj.1 heq)
  have hb' := b.toNat_lt
  have hnext := nextIdToFetch.toNat_lt
  rw [UInt64.add_sub_cancel]
  rw [UInt64.lt_iff_toNat_lt, UInt64.toNat_sub, UInt64.toNat_one] at *
  omega

theorem refillLoop (now : BlockchainTime) (fuel : Nat) (agents : AgentMap)
    (h : NonePassed newest nextIdToFetch) :
    NonePassed newest (refillLoop now fuel agents nextIdToFetch).2 := by
  induction fuel generalizing agents nextIdToFetch with
  | zero => exact h
  | succ fuel ih =>
    rw [SwabianCoin.refillLoop]
    split_ifs with hmore
    · rw [Bool.and_eq_true, Bool.not_eq_true'] at hmore
      exact ih _ (h.succ (by simp [hmore.2]))
    · exact h

/-- **When the test works.** -/
theorem notices_iff (h : NonePassed newest nextIdToFetch) :
    (∀ globalBlockchainNewestBlockId b : BlockUid, isBaselineBlock b = true → newest < b →
        b ≤ globalBlockchainNewestBlockId →
          getNextBaselineBlock nextIdToFetch ≤ globalBlockchainNewestBlockId) ↔
      ¬ (isBaselineBlock nextIdToFetch = true ∧ newest < nextIdToFetch ∧
        nextIdToFetch.toNat + 720 < 2 ^ 64) := by
  constructor
  · intro hall
    rintro ⟨hbaseline, hlt, hroom⟩
    have hle := hall nextIdToFetch nextIdToFetch hbaseline hlt (le_refl _)
    have hlt := lt_getNextBaselineBlock (ne_zero_of_isBaselineBlock hbaseline) hroom
    exact absurd hlt (not_lt.2 hle)
  · intro hnot global b hb hlt hglobal
    have hbefore := h b hb hlt
    refine le_trans ?_ hglobal
    by_cases heq : nextIdToFetch = b
    · -- At a baseline the next one comes out small only if it was the last.
      subst heq
      refine getNextBaselineBlock_le_self hb (not_lt.1 fun hroom => hnot ⟨hb, hlt, hroom⟩)
    · have h0 : nextIdToFetch ≠ 0 := by
        intro h0
        subst h0
        have hmax := b.toNat_lt
        rw [UInt64.lt_iff_toNat_lt] at hbefore
        have hlast : (0 - 1 : UInt64).toNat = 2 ^ 64 - 1 := by decide
        omega
      refine getNextBaselineBlock_le hb h0 (lt_of_le_of_ne ?_ heq)
      rw [UInt64.lt_iff_toNat_lt, toNat_sub_one h0] at hbefore
      rw [UInt64.le_iff_toNat_le]
      omega

end NonePassed

/-! ## The invariant -/

/-- While there is a thread the chain is in order, and in the loop over the blocks the cursor has
passed no baseline. -/
structure CursorInv (node : FetchingNode) : Prop where
  tip : node.state.thread ≠ .joined → TipOk node.base.blockchain
  cursor : ∀ nextIdToFetch ∈ node.state.thread.nextIdToFetch,
    NonePassed node.base.blockchain.getNewestBlockId nextIdToFetch

/-- A block that is accepted gets a larger id than the newest one. -/
theorem TipOk.newest_le_addBlock {bc : Blockchain} (h : TipOk bc) {block : CollectionBlock}
    (hacc : bc.Accepts crypto block) :
    bc.getNewestBlockId ≤ (bc.addBlock crypto block).getNewestBlockId := by
  have hne : bc.getNewestBlockId + 1 ≠ 0 := by
    rw [← h.next, ← h.uid_of_accepts hacc]
    exact hacc.contents.choose_spec.2.uid_ne_zero
  have hpos : (bc.getNewestBlockId + 1).toNat ≠ 0 := fun heq => hne (UInt64.toNat_inj.1 heq)
  have hlt := bc.getNewestBlockId.toNat_lt
  show bc.getNewestBlockId ≤ bc.cache.nextFreeBlockId
  rw [h.next, UInt64.le_iff_toNat_le]
  rw [UInt64.toNat_add, UInt64.toNat_one] at *
  omega

theorem FetchingNode.newest_le_processFinishedAgents {node : FetchingNode}
    (h : TipOk node.base.blockchain) :
    node.base.blockchain.getNewestBlockId ≤
      (node.processFinishedAgents crypto).1.base.blockchain.getNewestBlockId := by
  refine (processAgents_chain
    (I := fun bc => TipOk bc ∧ node.base.blockchain.getNewestBlockId ≤ bc.getNewestBlockId)
    ?_ ?_ node.state.blockFetchAgentMap.entries node ⟨h, le_refl _⟩).2
  · intro bc bc' hbc hs
    have hnewest : bc'.getNewestBlockId = bc.getNewestBlockId :=
      congrArg MetaData.newestBlockId hs.metaData
    exact ⟨hbc.1.sameBalances hs, hnewest ▸ hbc.2⟩
  · intro bc block hbc hacc
    exact ⟨hbc.1.addBlock hacc, le_trans hbc.2 (hbc.1.newest_le_addBlock hacc)⟩

namespace CursorInv

variable {node : FetchingNode}

theorem cursor_cycleFetchBaseline (h : node.state.thread = .fetchingBaseline)
    (now : BlockchainTime) :
    ∀ nextIdToFetch ∈ (node.cycleFetchBaseline crypto now).1.state.thread.nextIdToFetch,
      NonePassed (node.cycleFetchBaseline crypto now).1.base.blockchain.getNewestBlockId
        nextIdToFetch := by
  have hnone : ∀ nextIdToFetch, nextIdToFetch ∉ node.state.thread.nextIdToFetch := by
    rw [h]
    intro nextIdToFetch hnext
    cases hnext
  unfold FetchingNode.cycleFetchBaseline
  split_ifs
  · split
    · exact fun nextIdToFetch hnext => absurd hnext (hnone nextIdToFetch)
    · rename_i peer block hreceived
      split_ifs with hnewer hvalid
      · intro nextIdToFetch hnext
        cases hnext
        show NonePassed (node.base.blockchain.setRootBlock block).getNewestBlockId _
        rw [Blockchain.setRootBlock, if_neg (validateBlockWithoutContext_header hvalid).2]
        intro b _ hlt
        rw [UInt64.add_sub_cancel]
        exact hlt
      · exact fun nextIdToFetch hnext => absurd hnext (hnone nextIdToFetch)
      · exact fun nextIdToFetch hnext => absurd hnext (hnone nextIdToFetch)
  · intro nextIdToFetch hnext
    cases hnext

theorem cursor_fetchBlocksThread (h : CursorInv node) (now : BlockchainTime)
    (numConnectedPeers : Nat) :
    ∀ nextIdToFetch ∈
        (node.fetchBlocksThread crypto now numConnectedPeers).1.state.thread.nextIdToFetch,
      NonePassed
        (node.fetchBlocksThread crypto now numConnectedPeers).1.base.blockchain.getNewestBlockId
        nextIdToFetch := by
  have hold := h.cursor
  unfold FetchingNode.fetchBlocksThread
  cases hthread : node.state.thread with
  | joined => exact hold
  | waitingForPeers =>
    dsimp only
    split_ifs
    · exact hold
    · intro nextIdToFetch hnext
      cases hnext
  | callingFetchBaseline =>
    intro nextIdToFetch hnext
    cases hnext
  | fetchingBaseline => exact cursor_cycleFetchBaseline hthread now
  | loopHead next =>
    have htip := h.tip (by simp [hthread])
    rw [hthread] at hold
    dsimp only
    split_ifs
    · intro nextIdToFetch hnext
      cases hnext
      exact (hold next rfl).mono (FetchingNode.newest_le_processFinishedAgents htip)
    · intro nextIdToFetch hnext
      cases hnext
  | refilling next =>
    rw [hthread] at hold
    intro nextIdToFetch hnext
    cases hnext
    exact (hold next rfl).refillLoop now _ _
  | comparing next =>
    rw [hthread] at hold
    dsimp only
    split_ifs
    · intro nextIdToFetch hnext
      cases hnext
    · intro nextIdToFetch hnext
      cases hnext
      exact hold next rfl

/-- **One step.** Outside of the thread neither the cursor nor the newest id changes. -/
theorem step (h : CursorInv node) (event : FetchEvent) : CursorInv (node.step crypto event) := by
  refine ⟨(fetchClosed_tipOk crypto).step event h.tip, ?_⟩
  have hold := h.cursor
  have hacts := node.acts_step crypto event
  generalize node.step crypto event = next at hacts ⊢
  cases hacts with
  | ignored => exact hold
  | onEnter =>
    intro nextIdToFetch hnext
    cases hnext
  | onCycle now => exact hold
  | onExit now => exact hold
  | baselineBlockReceived peer block reply =>
    obtain ⟨hbase, hthread, -⟩ := node.baselineBlockReceived_same peer block reply
    rw [hbase, hthread]
    exact hold
  | collectionBlockReceived peer block reply =>
    obtain ⟨hbase, hthread⟩ := node.collectionBlockReceived_same peer block reply
    rw [hbase, hthread]
    exact hold
  | fetchBlocksThread now numConnectedPeers =>
    exact h.cursor_fetchBlocksThread now numConnectedPeers
  | cacheThread => exact hold
  | elsewhere base hleft =>
    intro nextIdToFetch hnext
    rw [hleft.2] at hnext
    cases hnext

theorem noticesBaselines_iff (h : CursorInv node) :
    node.NoticesBaselines ↔ ¬ node.WaitsOnBaseline := by
  unfold FetchingNode.NoticesBaselines FetchingNode.WaitsOnBaseline
  cases hnext : node.state.thread.nextIdToFetch with
  | none => simp
  | some nextIdToFetch =>
    have hiff := (h.cursor nextIdToFetch hnext).notices_iff
    simpa using hiff

end CursorInv

/-- **When a new baseline is noticed.** In every state of every run, whatever the peers send, the
test for a fast-forward works exactly when the cursor does not wait on a baseline. -/
theorem FetchingNode.noticesBaselines_iff_not_waits (crypto : CryptoHelper)
    (base : BlockchainManager) (events : List FetchEvent) :
    Run.AllStates (FetchingNode.step crypto)
      (fun node => node.NoticesBaselines ↔ ¬ node.WaitsOnBaseline) { base } events := by
  have hstart : CursorInv { base } := by
    refine ⟨fun hne => absurd rfl hne, ?_⟩
    intro nextIdToFetch hnext
    cases hnext
  have hinv : Run.AllStates (FetchingNode.step crypto) CursorInv { base } events :=
    Run.AllStates.of_steps (P := fun _ _ => True) (fun _ event h _ => h.step event) hstart
      (Run.AllSteps.of_forall_mem fun _ _ _ => trivial)
  exact hinv.mono fun _ h => h.noticesBaselines_iff

namespace Sample

/-- An empty baseline twenty blocks before the next id of the grid. -/
def lateRoot : BaselineBlock :=
  CryptoHelper.sample.fillHash
    { header := { genericHeader := { blockType := .BaselineBlock }, blockUid := 700 }
      miningState := {}
      dataValueHashes := [[]]
      wallets := ∅ }

/-- The thread gets this root and makes agents for the blocks `701` to `720`. -/
def fetchLateRoot : List FetchEvent :=
  [.onEnter, .fetchBlocksThread 0 1, .fetchBlocksThread 0 1,
    .baselineBlockReceived [1] lateRoot true, .fetchBlocksThread 0 1, .fetchBlocksThread 0 1,
    .fetchBlocksThread 0 1]

end Sample

/-- The node is at the block `700` and its cursor at the baseline `721`. When the network has
that baseline, the test asks for `1441`. -/
theorem baseline_at_cursor_missed :
    ¬ Run.AllStates (FetchingNode.step .sample) FetchingNode.NoticesBaselines
      { base := Sample.freshNode } Sample.fetchLateRoot := by
  intro h
  have hlast := h.last 721 (by decide +kernel) 721 721 (by decide) (by decide +kernel) (by decide)
  exact absurd hlast (by decide)

end SwabianCoin
