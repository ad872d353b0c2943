import SwabianCoin.HashChain
import SwabianCoin.View

/-!
# Honest peers

`processFinishedAgents` judges the blocks that have arrived in the order of their ids, and goes on
when one is refused. But every later block then stands on a block that is missing, so it is refused
as well, and the peer that sent it is reported, whatever it sent. The same happens to replies that
are left over when a new root is set.

An honest peer answers a question for an id with the genuine block of that id. It is spared as
long as what is stored and what has arrived before its block are the genuine blocks before it
(`GenuineBefore`). The chain of a node looks as if the blocks it stores had been added to its root
(`Replayed`), so it accepts what the genuine chain accepts.
-/

namespace SwabianCoin

open Machine

variable {crypto : CryptoHelper}

/-! ## Statement -/

def Block.asCollection : Block → Option CollectionBlock
  | .baseline _ => none
  | .collection block => some block

def Block.asBaseline : Block → Option BaselineBlock
  | .baseline block => some block
  | .collection _ => none

/-- The baseline a chain has been fetched from. -/
def Blockchain.rootBlock (bc : Blockchain) : Option BaselineBlock :=
  (bc.getBlock bc.getRootBlockId).bind Block.asBaseline

/-- The collections a chain stores after its root, in order. -/
def Blockchain.blocksSinceRoot (bc : Blockchain) : List CollectionBlock :=
  (List.range (bc.getNewestBlockId.toNat - bc.getRootBlockId.toNat)).filterMap fun i =>
    (bc.getBlock (bc.getRootBlockId + 1 + UInt64.ofNat i)).bind Block.asCollection

/-- `count` genuine blocks after an id. -/
def genuineAfter (genuine : BlockUid → CollectionBlock) (uid : BlockUid) (count : Nat) :
    List CollectionBlock :=
  (List.range count).map fun i => genuine (uid + 1 + UInt64.ofNat i)

/-- The genuine blocks up to `uid` are accepted one after the other from the root. -/
def FollowsRoot (crypto : CryptoHelper) (genuine : BlockUid → CollectionBlock)
    (root : BaselineBlock) (uid : BlockUid) : Prop :=
  root.header.blockUid < uid →
    AcceptedInTurn crypto (({} : Blockchain).setRootBlock root)
      (genuineAfter genuine root.header.blockUid (uid.toNat - root.header.blockUid.toNat))

/-- The replies `processFinishedAgents` takes: those of the agents up to the first without one. -/
def finishedReplies : List (BlockUid × BlockFetchAgent CollectionBlock) →
    List (PeerId × CollectionBlock)
  | [] => []
  | (_, agent) :: rest =>
    match agent.receivedBlock with
    | none => []
    | some reply => reply :: finishedReplies rest

namespace FetchingNode

/-- The replies that are processed now. -/
def repliesNow (node : FetchingNode) : List (PeerId × CollectionBlock) :=
  finishedReplies node.state.blockFetchAgentMap.entries

/-- The peer answers with genuine blocks, of a chain that is accepted from the root that was
fetched. -/
def HonestStep (crypto : CryptoHelper) (genuine : BlockUid → CollectionBlock) (peer : PeerId)
    (node : FetchingNode) : FetchEvent → Prop
  | .collectionBlockReceived sender block _ =>
    sender = peer → block = genuine block.header.blockUid
  | .fetchBlocksThread _ _ => ∀ root ∈ node.base.blockchain.rootBlock,
    ∀ reply ∈ node.repliesNow, reply.1 = peer →
      FollowsRoot crypto genuine root reply.2.header.blockUid
  | _ => True

/-- The thread is about to call `processFinishedAgents`. -/
def processesAgents (node : FetchingNode) : Bool :=
  match node.state.thread with
  | .loopHead _ => node.state.running
  | _ => false

/-- `P` holds of the node whenever `processFinishedAgents` is called. -/
def OnProcessing (P : FetchingNode → Prop) (node : FetchingNode) : FetchEvent → Prop
  | .fetchBlocksThread _ _ => node.processesAgents = true → P node
  | _ => True

/-- `processFinishedAgents` passes the peer to `reportViolation`. -/
def Reports (crypto : CryptoHelper) (node : FetchingNode) (peer : PeerId) : Prop :=
  .manager (.reportViolation peer .invalidBlock) ∈ (node.processFinishedAgents crypto).2

/-- The blocks among some replies that come after the newest block. -/
def freshBlocks (bc : Blockchain) (replies : List (PeerId × CollectionBlock)) :
    List CollectionBlock :=
  (replies.map Prod.snd).filter fun block => decide (bc.getNewestBlockId < block.header.blockUid)

/-- What is stored after the root and what arrived before a block of the peer are the genuine
blocks before it. -/
def GenuineBefore (genuine : BlockUid → CollectionBlock) (peer : PeerId) (node : FetchingNode) :
    Prop :=
  ∀ i, ∀ h : i < node.repliesNow.length, (node.repliesNow.get ⟨i, h⟩).1 = peer →
    let block := (node.repliesNow.get ⟨i, h⟩).2
    node.base.blockchain.getRootBlockId < block.header.blockUid ∧
      node.base.blockchain.blocksSinceRoot ++
          freshBlocks node.base.blockchain (node.repliesNow.take i) =
        genuineAfter genuine node.base.blockchain.getRootBlockId
          (block.header.blockUid.toNat - node.base.blockchain.getRootBlockId.toNat - 1)

end FetchingNode

/-! ## Deciding -/

deriving instance DecidableEq for FetchEffect

instance (genuine : BlockUid → CollectionBlock) (root : BaselineBlock) (uid : BlockUid) :
    Decidable (FollowsRoot crypto genuine root uid) :=
  inferInstanceAs (Decidable (_ → _))

namespace FetchingNode

variable {genuine : BlockUid → CollectionBlock} {peer : PeerId} {node : FetchingNode}

instance : ∀ event, Decidable (node.HonestStep crypto genuine peer event)
  | .collectionBlockReceived sender block _ =>
    inferInstanceAs (Decidable (sender = peer → block = genuine block.header.blockUid))
  | .fetchBlocksThread _ _ => inferInstanceAs (Decidable (∀ root ∈ _, ∀ reply ∈ _, _ → _))
  | .onEnter | .onCycle _ | .onExit _ | .baselineBlockReceived _ _ _ | .cacheThread
  | .elsewhere _ => inferInstanceAs (Decidable True)

instance : Decidable (node.Reports crypto peer) :=
  inferInstanceAs (Decidable (_ ∈ (node.processFinishedAgents crypto).2))

instance : Decidable (node.GenuineBefore genuine peer) :=
  inferInstanceAs (Decidable (∀ i, ∀ _ : i < _, _ → _ ∧ _))

instance {P : FetchingNode → Prop} [Decidable (P node)] :
    ∀ event, Decidable (node.OnProcessing P event)
  | .fetchBlocksThread _ _ => inferInstanceAs (Decidable (_ → P node))
  | .onEnter | .onCycle _ | .onExit _ | .baselineBlockReceived _ _ _
  | .collectionBlockReceived _ _ _ | .cacheThread | .elsewhere _ => inferInstanceAs (Decidable True)

end FetchingNode

/-! ## Judging -/

/-- What `processFinishedAgents` does to the chain for one block. -/
def Blockchain.judgeBlock (crypto : CryptoHelper) (bc : Blockchain) (block : CollectionBlock) :
    Blockchain :=
  let result := bc.validateBlock crypto block
  if result.1 then result.2.addBlock crypto block else result.2

/-- A peer is reported for a block that is refused where it stands. -/
theorem exists_refused_of_reported {node : FetchingNode} {peer : PeerId} {ground : Violation}
    {entries : List (BlockUid × BlockFetchAgent CollectionBlock)}
    (h : .manager (.reportViolation peer ground) ∈ (node.processAgents crypto entries).2) :
    ∃ before block after, finishedReplies entries = before ++ (peer, block) :: after ∧
      ¬ ((before.map Prod.snd).foldl (Blockchain.judgeBlock crypto)
        node.base.blockchain).Accepts crypto block := by
  induction entries generalizing node with
  | nil => exact absurd h List.not_mem_nil
  | cons first rest ih =>
    obtain ⟨uid, agent⟩ := first
    rw [FetchingNode.processAgents] at h
    rw [finishedReplies]
    cases hreceived : agent.receivedBlock with
    | none =>
      rw [hreceived] at h
      exact absurd h List.not_mem_nil
    | some reply =>
      obtain ⟨sender, block⟩ := reply
      simp only [hreceived] at h
      -- a report about a later block, on the chain after this one
      have hlater (next : FetchingNode)
          (hnext : next.base.blockchain = node.base.blockchain.judgeBlock crypto block)
          (h : .manager (.reportViolation peer ground) ∈ (next.processAgents crypto rest).2) :
          ∃ before block' after,
            (sender, block) :: finishedReplies rest = before ++ (peer, block') :: after ∧
              ¬ ((before.map Prod.snd).foldl (Blockchain.judgeBlock crypto)
                node.base.blockchain).Accepts crypto block' := by
        obtain ⟨before, block', after, heq, hrefused⟩ := ih h
        refine ⟨(sender, block) :: before, block', after, ?_, ?_⟩
        · rw [heq, List.cons_append]
        · rw [hnext] at hrefused
          exact hrefused
      by_cases hacc : (node.base.blockchain.validateBlock crypto block).1 = true
      · rw [if_pos hacc] at h
        apply hlater _ _ h
        rw [Blockchain.judgeBlock, if_pos hacc]
      · rw [if_neg hacc] at h
        rcases List.mem_append.1 h with hhere | hrest
        · refine ⟨[], block, finishedReplies rest, ?_, hacc⟩
          obtain ⟨effect, heffect, heq⟩ := List.mem_map.1 hhere
          cases heq
          rcases BlockchainManager.mem_reportViolation heffect with hreport | hban
          · cases hreport
            rfl
          · cases hban
        · apply hlater _ _ hrest
          rw [Blockchain.judgeBlock, if_neg hacc]
          rfl

theorem not_accepts_of_le {bc : Blockchain} (htip : TipOk bc) {block : CollectionBlock}
    (hle : block.header.blockUid.toNat ≤ bc.getNewestBlockId.toNat) :
    ¬ bc.Accepts crypto block := by
  intro hacc
  have huid := htip.toNat_uid_of_accepts hacc
  omega

/-! ## Chains accepted in turn -/

theorem acceptedInTurn_append {bc : Blockchain} {blocks blocks' : List CollectionBlock} :
    AcceptedInTurn crypto bc (blocks ++ blocks') ↔ AcceptedInTurn crypto bc blocks ∧
      AcceptedInTurn crypto (blocks.foldl (Blockchain.addBlock crypto) bc) blocks' := by
  induction blocks generalizing bc with
  | nil => simp [AcceptedInTurn]
  | cons block rest ih =>
    simp only [List.cons_append, AcceptedInTurn, List.foldl_cons, ih, and_assoc]

/-- The chain that has the root and the blocks. -/
def replay (crypto : CryptoHelper) (root : BaselineBlock) (blocks : List CollectionBlock) :
    Blockchain :=
  blocks.foldl (Blockchain.addBlock crypto) (({} : Blockchain).setRootBlock root)

theorem replay_append (root : BaselineBlock) (blocks : List CollectionBlock)
    (block : CollectionBlock) :
    replay crypto root (blocks ++ [block]) = (replay crypto root blocks).addBlock crypto block := by
  rw [replay, List.foldl_append]
  rfl

/-- **Judging blocks of an accepted chain** adds the new ones and leaves the old ones out. -/
theorem judged_sameView {root : BaselineBlock} {uid : BlockUid} (blocks : List CollectionBlock)
    {bc : Blockchain} {stored : List CollectionBlock} (htip : TipOk bc)
    (hview : Blockchain.SameView (replay crypto root stored) bc)
    (huid : uid.toNat ≤ bc.getNewestBlockId.toNat)
    (haccepted : AcceptedInTurn crypto (({} : Blockchain).setRootBlock root)
      (stored ++ blocks.filter fun block => decide (uid < block.header.blockUid))) :
    Blockchain.SameView (replay crypto root
        (stored ++ blocks.filter fun block => decide (uid < block.header.blockUid)))
      (blocks.foldl (Blockchain.judgeBlock crypto) bc) := by
  induction blocks generalizing bc stored with
  | nil => simpa using hview
  | cons block rest ih =>
    have hjudged := Blockchain.validateBlock_snd crypto bc block
    rw [List.foldl_cons, Blockchain.judgeBlock]
    -- Blocks up to the newest one are refused, the others are accepted.
    by_cases hnew : uid < block.header.blockUid
    · rw [List.filter_cons_of_pos (by simpa using hnew)] at haccepted ⊢
      rw [List.append_cons] at haccepted ⊢
      have hacc : bc.Accepts crypto block := by
        rw [List.append_assoc, acceptedInTurn_append] at haccepted
        exact hview.accepts.2 haccepted.2.1
      have hacc' := hjudged.accepts.2 hacc
      have hverdict : (bc.validateBlock crypto block).1 = true := hacc
      rw [if_pos hverdict]
      refine ih ((htip.sameBalances hjudged).addBlock hacc') ?_ ?_ haccepted
      · rw [replay_append]
        exact (hview.trans hjudged.sameView).addBlock crypto block
      · have hgrown := (htip.sameBalances hjudged).toNat_uid_of_accepts hacc'
        have hnext := (htip.sameBalances hjudged).uid_of_accepts hacc'
        show _ ≤ (bc.validateBlock crypto block).2.cache.nextFreeBlockId.toNat
        rw [← hnext, hgrown, Blockchain.getNewestBlockId, hjudged.metaData]
        exact Nat.le_succ_of_le huid
    · have hold : ¬ bc.Accepts crypto block := by
        apply not_accepts_of_le htip
        exact le_trans (UInt64.le_iff_toNat_le.1 (not_lt.1 hnew)) huid
      rw [List.filter_cons_of_neg (by simpa using hnew)] at haccepted ⊢
      have hrefused : ¬ (bc.validateBlock crypto block).1 = true := hold
      rw [if_neg hrefused]
      refine ih (htip.sameBalances hjudged) (hview.trans hjudged.sameView) ?_ haccepted
      rw [Blockchain.getNewestBlockId, hjudged.metaData]
      exact huid

/-! ## What is stored -/

theorem toNat_after {uid : BlockUid} {i : Nat} (h : uid.toNat + 1 + i < 2 ^ 64) :
    (uid + 1 + UInt64.ofNat i).toNat = uid.toNat + 1 + i := by
  rw [UInt64.toNat_add, UInt64.toNat_add, UInt64.toNat_one, UInt64.toNat_ofNat']
  omega

theorem mem_rootBlock {bc : Blockchain} {root : BaselineBlock} :
    root ∈ bc.rootBlock ↔ bc.getBlock bc.getRootBlockId = some (.baseline root) := by
  unfold Blockchain.rootBlock
  cases bc.getBlock bc.getRootBlockId with
  | none => simp
  | some block => cases block <;> simp [Block.asBaseline]

theorem rootBlock_congr {bc bc' : Blockchain}
    (hblock : bc'.getBlock bc.getRootBlockId = bc.getBlock bc.getRootBlockId)
    (hid : bc'.getRootBlockId = bc.getRootBlockId) : bc'.rootBlock = bc.rootBlock := by
  rw [Blockchain.rootBlock, hid, hblock]
  rfl

/-- There is one block with the id of the root. -/
theorem eq_of_mem_rootBlock {bc : Blockchain} {root block : BaselineBlock}
    (hroot : root ∈ bc.rootBlock)
    (hblock : bc.getBlock bc.getRootBlockId = some (.baseline block)) : root = block := by
  rw [mem_rootBlock, hblock] at hroot
  cases hroot
  rfl

theorem blocksSinceRoot_eq_nil {bc : Blockchain} (h : bc.getNewestBlockId = bc.getRootBlockId) :
    bc.blocksSinceRoot = [] := by
  rw [Blockchain.blocksSinceRoot, h, Nat.sub_self]
  rfl

theorem blocksSinceRoot_congr {bc bc' : Blockchain} (hmeta : bc'.metaData = bc.metaData)
    (hblock : ∀ uid, bc.getRootBlockId ≤ uid → bc'.getBlock uid = bc.getBlock uid) :
    bc'.blocksSinceRoot = bc.blocksSinceRoot := by
  have hroot : bc'.getRootBlockId = bc.getRootBlockId := congrArg MetaData.rootBlockId hmeta
  have hnewest : bc'.getNewestBlockId = bc.getNewestBlockId :=
    congrArg MetaData.newestBlockId hmeta
  unfold Blockchain.blocksSinceRoot
  rw [hroot, hnewest]
  apply List.filterMap_congr
  intro i hi
  have hlt := bc.getNewestBlockId.toNat_lt
  rw [List.mem_range] at hi
  rw [hblock]
  rw [UInt64.le_iff_toNat_le, toNat_after (by omega)]
  omega

theorem ChainInv.succ_ne_zero {bc : Blockchain} (h : ChainInv crypto bc) {block : CollectionBlock}
    (hacc : bc.Accepts crypto block) : bc.getNewestBlockId + 1 ≠ 0 := by
  obtain ⟨_, -, hc⟩ := hacc.contents
  rw [← h.next, ← h.tipOk.uid_of_accepts hacc]
  exact hc.uid_ne_zero

theorem blocksSinceRoot_addBlock {bc : Blockchain}
    (hnext : bc.cache.nextFreeBlockId = bc.getNewestBlockId + 1)
    (hle : bc.getRootBlockId ≤ bc.getNewestBlockId) (hne : bc.getNewestBlockId + 1 ≠ 0)
    (block : CollectionBlock) :
    (bc.addBlock crypto block).blocksSinceRoot = bc.blocksSinceRoot ++ [block] := by
  rw [UInt64.le_iff_toNat_le] at hle
  have hgrown : bc.cache.nextFreeBlockId.toNat = bc.getNewestBlockId.toNat + 1 := by
    rw [hnext, toNat_add_one hne]
  have hlt := bc.cache.nextFreeBlockId.toNat_lt
  have hcount : bc.cache.nextFreeBlockId.toNat - bc.getRootBlockId.toNat =
      (bc.getNewestBlockId.toNat - bc.getRootBlockId.toNat) + 1 := by
    omega
  have hlast : bc.getRootBlockId + 1 +
      UInt64.ofNat (bc.getNewestBlockId.toNat - bc.getRootBlockId.toNat) =
        bc.cache.nextFreeBlockId := by
    rw [← UInt64.toNat_inj, toNat_after (by omega)]
    omega
  unfold Blockchain.blocksSinceRoot
  show List.filterMap _ (List.range (bc.cache.nextFreeBlockId.toNat - bc.getRootBlockId.toNat)) = _
  rw [hcount, List.range_succ, List.filterMap_append]
  -- The old ids find the old blocks, the last one finds the new block.
  congr 1
  · apply List.filterMap_congr
    intro i hi
    rw [List.mem_range] at hi
    have hbefore : bc.getRootBlockId + 1 + UInt64.ofNat i ≤ bc.getNewestBlockId := by
      rw [UInt64.le_iff_toNat_le, toNat_after (by omega)]
      omega
    show ((bc.addBlock crypto block).getBlock (bc.getRootBlockId + 1 + UInt64.ofNat i)).bind _ = _
    rw [Blockchain.getBlock_addBlock_of_le hnext hne block hbefore]
  · have hself : (bc.addBlock crypto block).getBlock bc.cache.nextFreeBlockId =
        some (.collection block) := Cache.getBlock_addBlock_self bc.cache (.collection block)
    rw [← hlast] at hself
    exact List.filterMap_cons_some (congrArg (Option.bind · Block.asCollection) hself)

/-- The chain looks as if its blocks had been added to its root. -/
structure Replayed (crypto : CryptoHelper) (bc : Blockchain) : Prop extends ChainInv crypto bc where
  view : ∀ root ∈ bc.rootBlock, Blockchain.SameView (replay crypto root bc.blocksSinceRoot) bc

namespace Replayed

variable {bc bc' : Blockchain}

theorem of_root {cache : Cache} {block : BaselineBlock} (h0 : block.header.blockUid ≠ 0)
    (htype : block.header.genericHeader.blockType = .BaselineBlock) :
    Replayed crypto
      { cache := (cache.resetCache block.header.blockUid).addBlock (.baseline block)
        currentBaseline := Hashed.withBlockHash block 0
        metaData := ⟨block.header.blockUid, block.header.blockUid⟩ } where
  toChainInv := ChainInv.of_root h0 rfl htype
  view root hroot := by
    have hself := Cache.getBlock_addBlock_self (cache.resetCache block.header.blockUid)
      (.baseline block)
    rw [eq_of_mem_rootBlock hroot hself, blocksSinceRoot_eq_nil rfl, replay, List.foldl_nil,
      Blockchain.setRootBlock, if_neg h0]
    refine ⟨?_, rfl, rfl, rfl, rfl, fun _ => rfl⟩
    have hself' := Cache.getBlock_addBlock_self
      (({} : Cache).resetCache block.header.blockUid) (.baseline block)
    exact hself.trans hself'.symm

theorem setRootBlock {block : BaselineBlock} (h0 : block.header.blockUid ≠ 0)
    (htype : block.header.genericHeader.blockType = .BaselineBlock) :
    Replayed crypto (bc.setRootBlock block) := by
  rw [Blockchain.setRootBlock, if_neg h0]
  exact of_root h0 htype

theorem sameBalances (h : Replayed crypto bc) (hs : Blockchain.SameBalances bc bc') :
    Replayed crypto bc' where
  toChainInv := h.toChainInv.sameBalances hs
  view root hroot := by
    have hblock (uid : BlockUid) : bc'.getBlock uid = bc.getBlock uid := by
      unfold Blockchain.getBlock
      rw [hs.cache]
    have hid : bc'.getRootBlockId = bc.getRootBlockId := congrArg MetaData.rootBlockId hs.metaData
    rw [rootBlock_congr (hblock _) hid] at hroot
    rw [blocksSinceRoot_congr hs.metaData fun uid _ => hblock uid]
    exact (h.view root hroot).trans hs.sameView

theorem addBlock (h : Replayed crypto bc) {block : CollectionBlock}
    (hacc : bc.Accepts crypto block) : Replayed crypto (bc.addBlock crypto block) where
  toChainInv := h.toChainInv.addBlock_of_accepts hacc
  view root hroot := by
    have hne := h.succ_ne_zero hacc
    rw [rootBlock_congr (h.getBlock_addBlock hne block h.root_le) rfl] at hroot
    rw [blocksSinceRoot_addBlock h.next h.root_le hne, replay_append]
    exact (h.view root hroot).addBlock crypto block

theorem cacheThread (h : Replayed crypto bc) :
    Replayed crypto { bc with cache := bc.cache.cacheThread } where
  toChainInv := h.toChainInv.cacheThread
  view root hroot := by
    have hblock (uid : BlockUid) (hle : bc.getRootBlockId ≤ uid) :
        ({ bc with cache := bc.cache.cacheThread } : Blockchain).getBlock uid = bc.getBlock uid :=
      Cache.getBlock_cacheThread h.wellKeyed (Or.inl (h.ne_zero hle))
    rw [rootBlock_congr (hblock _ (le_refl _)) rfl] at hroot
    have hview : Blockchain.SameView bc { bc with cache := bc.cache.cacheThread } :=
      ⟨h.tipOk.getNewestBlock_cacheThread, Cache.nextFreeBlockId_cacheThread bc.cache, rfl, rfl,
        rfl, fun _ => rfl⟩
    have hstored : Blockchain.blocksSinceRoot { bc with cache := bc.cache.cacheThread } =
        bc.blocksSinceRoot := blocksSinceRoot_congr rfl hblock
    rw [hstored]
    exact (h.view root hroot).trans hview

end Replayed

theorem fetchClosed_replayed (crypto : CryptoHelper) : FetchClosed crypto (Replayed crypto) where
  initEmptyChain _ := Replayed.setRootBlock (show (1 : UInt64) ≠ 0 by decide) rfl
  setRootBlock _ _ hvalid :=
    Replayed.setRootBlock (validateBlockWithoutContext_header hvalid).2
      (validateBlockWithoutContext_header hvalid).1
  sameBalances _ _ h hs := h.sameBalances hs
  addBlock _ _ h hacc := h.addBlock hacc
  cacheThread _ h := h.cacheThread

/-! ## Runs -/

theorem genuineAfter_succ (genuine : BlockUid → CollectionBlock) (uid : BlockUid) (count : Nat) :
    genuineAfter genuine uid (count + 1) =
      genuineAfter genuine uid count ++ [genuine (uid + 1 + UInt64.ofNat count)] := by
  unfold genuineAfter
  rw [List.range_succ, List.map_append]
  rfl

theorem FollowsRoot.accepted {genuine : BlockUid → CollectionBlock} {root : BaselineBlock}
    {block : CollectionBlock} {blocks : List CollectionBlock}
    (h : FollowsRoot crypto genuine root block.header.blockUid)
    (hafter : root.header.blockUid < block.header.blockUid)
    (hblock : block = genuine block.header.blockUid)
    (hblocks : blocks = genuineAfter genuine root.header.blockUid
      (block.header.blockUid.toNat - root.header.blockUid.toNat - 1)) :
    AcceptedInTurn crypto (({} : Blockchain).setRootBlock root) (blocks ++ [block]) := by
  have hturn := h hafter
  have hlt := UInt64.lt_iff_toNat_lt.1 hafter
  have hbound := block.header.blockUid.toNat_lt
  have hcount : block.header.blockUid.toNat - root.header.blockUid.toNat =
      block.header.blockUid.toNat - root.header.blockUid.toNat - 1 + 1 := by
    omega
  have hlast : root.header.blockUid + 1 + UInt64.ofNat
      (block.header.blockUid.toNat - root.header.blockUid.toNat - 1) =
        block.header.blockUid := by
    rw [← UInt64.toNat_inj, toNat_after (by omega)]
    omega
  rw [hcount, genuineAfter_succ, ← hblocks, hlast, ← hblock] at hturn
  exact hturn

theorem exists_entry_of_mem_finishedReplies
    {entries : List (BlockUid × BlockFetchAgent CollectionBlock)} {reply : PeerId × CollectionBlock}
    (h : reply ∈ finishedReplies entries) :
    ∃ entry ∈ entries, entry.2.receivedBlock = some reply := by
  induction entries with
  | nil => exact absurd h List.not_mem_nil
  | cons first rest ih =>
    obtain ⟨uid, agent⟩ := first
    rw [finishedReplies] at h
    cases hreceived : agent.receivedBlock with
    | none =>
      simp only [hreceived] at h
      exact absurd h List.not_mem_nil
    | some received =>
      simp only [hreceived] at h
      rcases List.mem_cons.1 h with rfl | hlater
      · exact ⟨(uid, agent), List.mem_cons_self, hreceived⟩
      · obtain ⟨entry, hentry, hsome⟩ := ih hlater
        exact ⟨entry, List.mem_cons_of_mem _ hentry, hsome⟩

namespace FetchingNode

variable {genuine : BlockUid → CollectionBlock} {peer : PeerId} {node : FetchingNode}

/-- The chain is in order while there is a thread, and the peer's replies are genuine. -/
structure HonestInv (crypto : CryptoHelper) (genuine : BlockUid → CollectionBlock) (peer : PeerId)
    (node : FetchingNode) : Prop where
  chain : node.state.thread ≠ .joined → Replayed crypto node.base.blockchain
  replies : node.RepliesAre fun _ sender block =>
    sender = peer → block = genuine block.header.blockUid

theorem HonestInv.step (h : HonestInv crypto genuine peer node) {event : FetchEvent}
    (hhonest : node.HonestStep crypto genuine peer event) :
    HonestInv crypto genuine peer (node.step crypto event) where
  chain := (fetchClosed_replayed crypto).step event h.chain
  replies := h.replies.step fun sender block reply heq => by
    subst heq
    exact hhonest

theorem not_reports (hchain : Replayed crypto node.base.blockchain)
    (hreplies : node.RepliesAre fun _ sender block =>
      sender = peer → block = genuine block.header.blockUid)
    (hfollows : ∀ root ∈ node.base.blockchain.rootBlock, ∀ reply ∈ node.repliesNow,
      reply.1 = peer → FollowsRoot crypto genuine root reply.2.header.blockUid)
    (hbefore : node.GenuineBefore genuine peer) (ground : Violation) :
    .manager (.reportViolation peer ground) ∉ (node.processFinishedAgents crypto).2 := by
  intro hreported
  obtain ⟨before, block, after, hsplit, hrefused⟩ := exists_refused_of_reported hreported
  have hlookup : node.repliesNow[before.length]? = some (peer, block) := by
    rw [repliesNow, hsplit, List.getElem?_append_right (le_refl _), Nat.sub_self]
    rfl
  obtain ⟨hlength, hget⟩ := List.getElem?_eq_some_iff.1 hlookup
  have htake : node.repliesNow.take before.length = before := by
    rw [repliesNow, hsplit, List.take_left]
  obtain ⟨hafter, hgenuine⟩ := hbefore before.length hlength (by rw [List.get_eq_getElem, hget])
  simp only [List.get_eq_getElem, hget, htake] at hafter hgenuine
  obtain ⟨root, hstored, hrootUid⟩ := hchain.root
  have hroot := mem_rootBlock.2 hstored
  have hmem : (peer, block) ∈ node.repliesNow := by
    rw [repliesNow, hsplit]
    exact List.mem_append_right _ List.mem_cons_self
  have hblock : block = genuine block.header.blockUid := by
    obtain ⟨entry, hentry, hsome⟩ := exists_entry_of_mem_finishedReplies hmem
    exact hreplies entry hentry (peer, block) hsome rfl
  rw [← hrootUid] at hafter hgenuine
  have haccepted := (hfollows root hroot (peer, block) hmem rfl).accepted hafter hblock hgenuine
  have hview := judged_sameView (before.map Prod.snd) hchain.tipOk (hchain.view root hroot)
    (le_refl node.base.blockchain.getNewestBlockId.toNat) (acceptedInTurn_append.1 haccepted).1
  exact hrefused (hview.accepts.2 (acceptedInTurn_append.1 haccepted).2.1)

theorem HonestInv.not_reports_step (h : HonestInv crypto genuine peer node) {event : FetchEvent}
    (hhonest : node.HonestStep crypto genuine peer event)
    (hgenuine : node.OnProcessing (GenuineBefore genuine peer) event) :
    node.OnProcessing (fun node => ¬ node.Reports crypto peer) event := by
  cases event with
  | fetchBlocksThread now numConnectedPeers =>
    intro hprocesses
    have hchain := h.chain fun hjoined => by simp [processesAgents, hjoined] at hprocesses
    exact not_reports hchain h.replies hhonest (hgenuine hprocesses) .invalidBlock
  | _ => trivial

/-- **When honest peers are spared.** In every run, with whatever other peers send, an honest peer
is not reported for a block, if at every call of `processFinishedAgents` the stored blocks and the
replies before that block are the genuine ones. -/
theorem notReported_of_genuineBefore (crypto : CryptoHelper) (genuine : BlockUid → CollectionBlock)
    (peer : PeerId) (base : BlockchainManager) (events : List FetchEvent)
    (hhonest : Run.AllSteps (FetchingNode.step crypto) (HonestStep crypto genuine peer) { base }
      events)
    (hgenuine : Run.AllSteps (FetchingNode.step crypto) (OnProcessing (GenuineBefore genuine peer))
      { base } events) :
    Run.AllSteps (FetchingNode.step crypto) (OnProcessing fun node => ¬ node.Reports crypto peer)
      { base } events := by
  have hstart : HonestInv crypto genuine peer { base } :=
    ⟨fun hne => absurd rfl hne, fun entry he => absurd he (OrdMap.not_mem_empty entry)⟩
  have hinv := Run.AllSteps.with_invariant (I := HonestInv crypto genuine peer)
    (fun _ _ h hstep => h.step hstep) hstart hhonest
  exact (Run.AllSteps.and.2 ⟨hinv, hgenuine⟩).mono fun _ _ h => h.1.1.not_reports_step h.1.2 h.2

end FetchingNode

namespace Sample

/-- The block after `mining`: `keyA` pays a part of the coin. -/
def partPaid : CollectionBlock :=
  block (.collection mining) [payment (.collection mining) keyA keyB 300000] []

/-- A chain of two blocks. -/
def genuineBlock (uid : BlockUid) : CollectionBlock :=
  if uid = 2 then mining else partPaid

/-- Two peers answer, one for each block of the chain. -/
def fetchFromTwo (first : CollectionBlock) : List FetchEvent :=
  fetchRoot ++ fetchRound ++ [.collectionBlockReceived [1] partPaid true,
    .collectionBlockReceived [2] first true] ++ fetchRound

end Sample

/-- Both blocks are genuine and arrive in the wrong order: nobody is reported. -/
theorem genuine_peer_spared :
    (Run.exec (FetchingNode.step .sample) { base := Sample.freshNode }
        (Sample.fetchFromTwo Sample.mining)).base.blockchain.getNewestBlockId = 3 ∧
      Run.AllSteps (FetchingNode.step .sample)
        (FetchingNode.OnProcessing fun node => ¬ node.Reports .sample [1])
        { base := Sample.freshNode } (Sample.fetchFromTwo Sample.mining) :=
  ⟨by decide +kernel, FetchingNode.notReported_of_genuineBefore .sample Sample.genuineBlock [1]
    Sample.freshNode (Sample.fetchFromTwo Sample.mining) (by decide +kernel) (by decide +kernel)⟩

/-- A forged block `2` of another peer makes the node report the honest sender of the block `3`. -/
theorem honest_peer_reported :
    ¬ ∀ (crypto : CryptoHelper) (genuine : BlockUid → CollectionBlock) (peer : PeerId)
        (base : BlockchainManager) (events : List FetchEvent),
      Run.AllSteps (FetchingNode.step crypto) (FetchingNode.HonestStep crypto genuine peer)
        { base } events →
      Run.AllSteps (FetchingNode.step crypto)
        (FetchingNode.OnProcessing fun node => ¬ node.Reports crypto peer) { base } events := by
  intro h
  have hspared := h .sample Sample.genuineBlock [1] Sample.freshNode
    (Sample.fetchFromTwo { Sample.mining with creations := ∅ }) (by decide +kernel)
  exact absurd hspared (by decide +kernel)

end SwabianCoin
