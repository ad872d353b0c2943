import SwabianCoin.FetchSteps
import SwabianCoin.UpdateStateThread

/-!
# Synchronisation ends

A node that fetches the blocks after its root gets on with every answer to the question for the
block after its newest one, whatever else happens in between and in whatever order other answers
arrive (`Synchronising.round`). So it has the whole chain of the network after so many answers as
there are blocks (`synchronises`), and `fetchBlockchain`, which waits for this, goes on.
-/

namespace SwabianCoin

open Machine

variable {crypto : CryptoHelper} {genuine : BlockUid → CollectionBlock}

/-! ## Statement -/

/-- The thread goes through its loop in three steps. -/
def WholeLoop (events : List FetchEvent) : Prop := 3 ≤ events.countP FetchEvent.isThreadStep

instance (events : List FetchEvent) : Decidable (WholeLoop events) :=
  inferInstanceAs (Decidable (3 ≤ _))

namespace FetchingNode

variable {root : BaselineBlock} {last : BlockUid} {node : FetchingNode} {event : FetchEvent}

/-- `fetchBaseline` has returned the root. -/
structure Rooted (crypto : CryptoHelper) (root : BaselineBlock) (node : FetchingNode) : Prop where
  running : node.state.running = true
  thread : node.state.thread = .loopHead (root.header.blockUid + 1)
  noAgents : node.state.blockFetchAgentMap = ∅
  valid : validateBlockWithoutContext crypto root = true
  chain : ∃ bc : Blockchain, node.base.blockchain = bc.setRootBlock root

/-- In each round somebody answers the question for the block after the newest one. The thread has
gone through its loop before, so that there is an agent for the block, and goes through it again. -/
def Answered (crypto : CryptoHelper) (genuine : BlockUid → CollectionBlock) (last : BlockUid) :
    FetchingNode → List (List FetchEvent) → Prop
  | _, [] => True
  | node, round :: rounds =>
    (node.base.blockchain.getNewestBlockId < last → ∃ before peer after,
      round = before ++ .collectionBlockReceived peer
        (genuine (node.base.blockchain.getNewestBlockId + 1)) true :: after ∧
      WholeLoop before ∧ WholeLoop after) ∧
    Answered crypto genuine last (Run.exec (FetchingNode.step crypto) node round) rounds

/-! ## Getting on -/

theorem processAgents_nothing (entries : List (BlockUid × BlockFetchAgent CollectionBlock))
    (node : FetchingNode) (h : finishedBlocks entries = []) :
    node.processAgents crypto entries = (node, []) := by
  cases entries with
  | nil => rfl
  | cons first rest =>
    obtain ⟨uid, agent⟩ := first
    rw [finishedBlocks] at h
    rw [processAgents]
    cases hreceived : agent.receivedBlock with
    | none => rfl
    | some received => simp [hreceived] at h

/-- As long as no block is added, the agents stay, and so do their replies. -/
theorem Synchronising.agent_stays (h : Synchronising crypto genuine root last node)
    (hc : Continuation crypto genuine root last) (hevent : node.Cooperates genuine last event)
    (hsame : (node.step crypto event).base.blockchain.getNewestBlockId =
      node.base.blockchain.getNewestBlockId)
    {uid : BlockUid} {agent : BlockFetchAgent CollectionBlock}
    (hagent : (uid, agent) ∈ node.state.blockFetchAgentMap) :
    ∃ next, (uid, next) ∈ (node.step crypto event).state.blockFetchAgentMap ∧
      KeepsReply agent next := by
  rcases h.step_cases hevent with ⟨-, hquiet⟩ | ⟨now, peers, nextIdToFetch, -, hthread, hstep⟩ |
    ⟨now, peers, nextIdToFetch, -, hthread, hstep⟩ | ⟨now, peers, nextIdToFetch, -, hthread, hstep⟩
  · obtain ⟨f, hagents, hkeeps⟩ := hquiet.agents
    refine ⟨f uid agent, ?_, hkeeps uid agent⟩
    rw [hagents]
    exact OrdMap.mem_mapEntries.2 ⟨agent, hagent, rfl⟩
  · have hnewest := (h.processed hc).2.1
    rw [hstep] at hsame ⊢
    have hsame : (node.processFinishedAgents crypto).1.base.blockchain.getNewestBlockId =
        node.base.blockchain.getNewestBlockId := hsame
    rw [hsame, Nat.left_eq_add, List.length_eq_zero_iff] at hnewest
    refine ⟨agent, ?_, KeepsReply.refl agent⟩
    show (uid, agent) ∈ (node.processFinishedAgents crypto).1.state.blockFetchAgentMap
    rw [processFinishedAgents, processAgents_nothing _ node hnewest]
    exact hagent
  · rw [hstep]
    exact ⟨agent, mem_refillLoop_of_mem now _ hagent, KeepsReply.refl agent⟩
  · rw [hstep]
    exact ⟨agent, hagent, KeepsReply.refl agent⟩

/-- The node has the block `uid`, and if it is the newest one, there is an agent for the next one of
which `Q` holds. -/
structure After (Q : BlockFetchAgent CollectionBlock → Prop) (uid : BlockUid)
    (node : FetchingNode) : Prop where
  le : uid ≤ node.base.blockchain.getNewestBlockId
  agent : node.base.blockchain.getNewestBlockId = uid →
    ∃ agent, (uid + 1, agent) ∈ node.state.blockFetchAgentMap ∧ Q agent

/-- **It stays so.** -/
theorem After.step {Q : BlockFetchAgent CollectionBlock → Prop}
    (hQ : ∀ agent next, KeepsReply agent next → Q agent → Q next) {uid : BlockUid}
    (hafter : After Q uid node) (h : Synchronising crypto genuine root last node)
    (hc : Continuation crypto genuine root last) (hevent : node.Cooperates genuine last event) :
    After Q uid (node.step crypto event) := by
  obtain ⟨-, hgrown, -⟩ := h.chain_step hc hevent
  refine ⟨hafter.le.trans hgrown, fun hnewest => ?_⟩
  have hbefore : node.base.blockchain.getNewestBlockId = uid :=
    le_antisymm (hgrown.trans_eq hnewest) hafter.le
  obtain ⟨agent, hagent, hq⟩ := hafter.agent hbefore
  obtain ⟨next, hnext, hkeeps⟩ := h.agent_stays hc hevent (hnewest.trans hbefore.symm) hagent
  exact ⟨next, hnext, hQ agent next hkeeps hq⟩

/-- **After refilling** there is an agent for the next block. -/
theorem Synchronising.refilled (h : Synchronising crypto genuine root last node)
    (hc : Continuation crypto genuine root last) (now : BlockchainTime) {nextIdToFetch : BlockUid}
    (hthread : node.state.thread.nextIdToFetch = some nextIdToFetch)
    (hlt : node.base.blockchain.getNewestBlockId < last) :
    node.base.blockchain.getNewestBlockId + 1 ∈
      (refillAgentMap now node.state.blockFetchAgentMap nextIdToFetch).1.keys := by
  have hagents (uid : BlockUid) := mem_keys_refillLoop now maxNumBlocksAfterBaseline.toNat
    (h.fetch.agents nextIdToFetch hthread) uid
  refine (hagents _).2 ?_
  rw [mem_between, UInt64.sub_self, UInt64.lt_iff_toNat_lt, UInt64.toNat_zero, ← length_between]
  rcases refillAgentMap_done now node.state.blockFetchAgentMap nextIdToFetch with hfull | hbaseline
  · rw [length_between_eq_size hagents]
    exact lt_of_lt_of_le (by decide) hfull
  · have hlt' := UInt64.lt_iff_toNat_lt.1 hlt
    have hlast := last.toNat_lt
    have hgrown : (node.base.blockchain.getNewestBlockId + 1).toNat =
        node.base.blockchain.getNewestBlockId.toNat + 1 := by
      rw [UInt64.toNat_add, UInt64.toNat_one]
      omega
    have hroot := UInt64.le_iff_toNat_le.1 h.chain.root_le_newest
    have hnot := hc.noBaseline (node.base.blockchain.getNewestBlockId + 1)
      (by rw [UInt64.lt_iff_toNat_lt]; omega) (by rw [UInt64.le_iff_toNat_le]; omega)
    rw [length_between, Nat.pos_iff_ne_zero]
    intro hzero
    have heq : (refillAgentMap now node.state.blockFetchAgentMap nextIdToFetch).2 =
        node.base.blockchain.getNewestBlockId + 1 := by
      rw [← UInt64.toNat_inj]
      have hsub := UInt64.toNat_inj.1 (hzero.trans UInt64.toNat_zero.symm)
      rw [← sub_eq_zero.1 hsub]
      rfl
    rw [heq, hnot] at hbaseline
    exact absurd hbaseline (by decide)

/-- How many steps of the thread come before `refillAgentMap`. -/
def stepsToRefill (node : FetchingNode) : Nat :=
  match node.state.thread with
  | .refilling _ => 0
  | .loopHead _ => 1
  | _ => 2

/-- How many steps of the thread come before `processFinishedAgents`. -/
def stepsToProcess (node : FetchingNode) : Nat :=
  match node.state.thread with
  | .loopHead _ => 0
  | .comparing _ => 1
  | _ => 2

theorem stepsToRefill_lt (node : FetchingNode) : node.stepsToRefill < 3 := by
  unfold stepsToRefill
  split <;> decide

theorem stepsToProcess_lt (node : FetchingNode) : node.stepsToProcess < 3 := by
  unfold stepsToProcess
  split <;> decide

/-- **One loop of the thread**, and there is an agent for the next block. -/
theorem Synchronising.asks (h : Synchronising crypto genuine root last node)
    (hc : Continuation crypto genuine root last)
    (hlt : node.base.blockchain.getNewestBlockId < last) {events : List FetchEvent}
    (hsteps : Run.AllSteps (FetchingNode.step crypto) (Cooperates genuine last) node events)
    (hloop : WholeLoop events) :
    After (fun _ => True) node.base.blockchain.getNewestBlockId
      (Run.exec (FetchingNode.step crypto) node events) := by
  refine Run.AllSteps.reaches stepsToRefill FetchEvent.isThreadStep
    (J := fun next => Synchronising crypto genuine root last next ∧
      node.base.blockchain.getNewestBlockId ≤ next.base.blockchain.getNewestBlockId)
    ?_ ?_ ?_ ?_ ⟨h, le_refl _⟩ hsteps (lt_of_lt_of_le node.stepsToRefill_lt hloop)
  · rintro next event ⟨hnext, hle⟩ hevent
    exact ⟨hnext.step hc hevent, hle.trans (hnext.chain_step hc hevent).2.1⟩
  · rintro next event ⟨hnext, -⟩ hevent hafter
    exact hafter.step (fun _ _ _ => id) hnext hc hevent
  · rintro next event ⟨hnext, -⟩ hevent hother
    rcases hnext.step_cases hevent with ⟨-, hquiet⟩ | ⟨_, _, _, rfl, -⟩ | ⟨_, _, _, rfl, -⟩ |
      ⟨_, _, _, rfl, -⟩
    · rw [stepsToRefill, stepsToRefill, hquiet.thread]
    all_goals cases hother
  · rintro next event ⟨hnext, hle⟩ hevent hkind
    rcases hnext.step_cases hevent with ⟨hother, -⟩ | ⟨_, _, _, -, hthread, hstep⟩ |
      ⟨now, _, nextIdToFetch, -, hthread, hstep⟩ | ⟨_, _, _, -, hthread, hstep⟩
    · rw [hkind] at hother
      cases hother
    · refine Or.inr ?_
      simp [stepsToRefill, hthread, hstep, withThread]
    · refine Or.inl ?_
      rw [hstep]
      refine ⟨hle, fun hnewest => ?_⟩
      have hnewest : next.base.blockchain.getNewestBlockId =
          node.base.blockchain.getNewestBlockId := hnewest
      have hkey := hnext.refilled hc now (by rw [hthread]; rfl) (hnewest ▸ hlt)
      rw [hnewest] at hkey
      obtain ⟨agent, hagent⟩ := OrdMap.mem_keys.1 hkey
      exact ⟨agent, hagent, trivial⟩
    · refine Or.inr ?_
      simp [stepsToRefill, hthread, hstep, withThread]

/-- **The answer is kept**, unless there was one before. -/
theorem Synchronising.answered (h : Synchronising crypto genuine root last node)
    (hc : Continuation crypto genuine root last) {uid : BlockUid} (hlt : uid < last)
    (hafter : After (fun _ => True) uid node) (peer : PeerId) :
    After (fun agent => agent.receivedBlock.isSome = true) uid
      (node.step crypto (.collectionBlockReceived peer (genuine (uid + 1)) true)) := by
  simp only [FetchingNode.step, act, if_pos h.running, collectionBlockReceived, if_true]
  refine ⟨hafter.le, fun hnewest => ?_⟩
  have hnewest : node.base.blockchain.getNewestBlockId = uid := hnewest
  obtain ⟨agent, hagent, -⟩ := hafter.agent hnewest
  have huid : (genuine (uid + 1)).header.blockUid = uid + 1 := by
    have hnext := h.chain.uid_next hc (hnewest.symm ▸ hlt)
    rwa [hnewest] at hnext
  have hid : agent.blockId = uid + 1 := h.ids (uid + 1, agent) hagent
  refine ⟨agent.blockReceivedCallback CollectionBlock.header peer (genuine (uid + 1)), ?_, ?_⟩
  · exact OrdMap.mem_mapEntries.2 ⟨agent, hagent, if_pos huid⟩
  · cases hreceived : agent.receivedBlock with
    | none => simp [BlockFetchAgent.blockReceivedCallback, hreceived, huid, hid]
    | some received => simp [BlockFetchAgent.blockReceivedCallback, hreceived]

/-- The first agent is the one for the next block. -/
theorem Synchronising.finishedBlocks_ne_nil (h : Synchronising crypto genuine root last node)
    (hc : Continuation crypto genuine root last) {agent : BlockFetchAgent CollectionBlock}
    (hagent : (node.base.blockchain.getNewestBlockId + 1, agent) ∈ node.state.blockFetchAgentMap)
    (hreply : agent.receivedBlock.isSome = true) :
    finishedBlocks node.state.blockFetchAgentMap.entries ≠ [] := by
  obtain ⟨nextIdToFetch, hnext⟩ := Option.ne_none_iff_exists'.1 h.inLoop
  have hle := UInt64.le_iff_toNat_le.1 h.newest_le
  have hleft := hc.idsLeft
  have hkeys := (h.fetch.agents nextIdToFetch hnext).keys_eq h.size (by omega)
  have hgrown : (node.base.blockchain.getNewestBlockId + 1).toNat =
      node.base.blockchain.getNewestBlockId.toNat + 1 := by
    rw [UInt64.toNat_add, UInt64.toNat_one]
    omega
  cases hentries : node.state.blockFetchAgentMap.entries with
  | nil =>
    rw [OrdMap.mem_def, hentries] at hagent
    exact absurd hagent List.not_mem_nil
  | cons first rest =>
    have hfirst : first ∈ node.state.blockFetchAgentMap := by
      rw [OrdMap.mem_def, hentries]
      exact List.mem_cons_self
    have hkey : first.1 = node.base.blockchain.getNewestBlockId + 1 := by
      rw [OrdMap.keys, OrdMap.size, hentries, List.map_cons, List.map_cons, List.length_cons,
        List.range'_succ] at hkeys
      rw [← UInt64.toNat_inj, hgrown]
      exact (List.cons.inj hkeys).1
    have heq := OrdMap.eq_of_mem_of_fst_eq hfirst hagent hkey
    obtain ⟨received, hreceived⟩ := Option.isSome_iff_exists.1 hreply
    rw [heq, finishedBlocks, hreceived]
    simp

/-- **One more loop of the thread**, and the block is there. -/
theorem Synchronising.gets (h : Synchronising crypto genuine root last node)
    (hc : Continuation crypto genuine root last) {uid : BlockUid}
    (hafter : After (fun agent => agent.receivedBlock.isSome = true) uid node)
    {events : List FetchEvent}
    (hsteps : Run.AllSteps (FetchingNode.step crypto) (Cooperates genuine last) node events)
    (hloop : WholeLoop events) :
    uid < (Run.exec (FetchingNode.step crypto) node events).base.blockchain.getNewestBlockId := by
  refine Run.AllSteps.reaches stepsToProcess FetchEvent.isThreadStep
    (I := fun next => uid < next.base.blockchain.getNewestBlockId)
    (J := fun next => Synchronising crypto genuine root last next ∧
      After (fun agent => agent.receivedBlock.isSome = true) uid next)
    ?_ ?_ ?_ ?_ ⟨h, hafter⟩ hsteps (lt_of_lt_of_le node.stepsToProcess_lt hloop)
  · rintro next event ⟨hnext, hafter⟩ hevent
    exact ⟨hnext.step hc hevent, hafter.step (fun _ _ hkeeps => hkeeps.reply) hnext hc hevent⟩
  · rintro next event ⟨hnext, -⟩ hevent hmore
    exact hmore.trans_le (hnext.chain_step hc hevent).2.1
  · rintro next event ⟨hnext, -⟩ hevent hother
    rcases hnext.step_cases hevent with ⟨-, hquiet⟩ | ⟨_, _, _, rfl, -⟩ | ⟨_, _, _, rfl, -⟩ |
      ⟨_, _, _, rfl, -⟩
    · rw [stepsToProcess, stepsToProcess, hquiet.thread]
    all_goals cases hother
  · rintro next event ⟨hnext, hafter⟩ hevent hkind
    rcases hnext.step_cases hevent with ⟨hother, -⟩ | ⟨_, _, _, -, hthread, hstep⟩ |
      ⟨_, _, _, -, hthread, hstep⟩ | ⟨_, _, _, -, hthread, hstep⟩
    · rw [hkind] at hother
      cases hother
    · refine Or.inl ?_
      rw [hstep]
      show uid < (next.processFinishedAgents crypto).1.base.blockchain.getNewestBlockId
      have hnewest := (hnext.processed hc).2.1
      rw [UInt64.lt_iff_toNat_lt, hnewest]
      have hle := UInt64.le_iff_toNat_le.1 hafter.le
      -- Either the block has been passed already, or its agent is the first one and has a reply.
      by_cases heq : next.base.blockchain.getNewestBlockId = uid
      · obtain ⟨agent, hagent, hreply⟩ := hafter.agent heq
        rw [← heq] at hagent
        have hpos := List.length_pos_iff.2 (hnext.finishedBlocks_ne_nil hc hagent hreply)
        omega
      · have hne : next.base.blockchain.getNewestBlockId.toNat ≠ uid.toNat :=
          fun hnat => heq (UInt64.toNat_inj.1 hnat)
        omega
    · refine Or.inr ?_
      simp [stepsToProcess, hthread, hstep]
    · refine Or.inr ?_
      simp [stepsToProcess, hthread, hstep, withThread]

/-! ## Rounds -/

theorem Synchronising.exec (h : Synchronising crypto genuine root last node)
    (hc : Continuation crypto genuine root last) {events : List FetchEvent}
    (hsteps : Run.AllSteps (FetchingNode.step crypto) (Cooperates genuine last) node events) :
    Synchronising crypto genuine root last (Run.exec (FetchingNode.step crypto) node events) :=
  (Run.AllStates.of_steps (fun _ _ hnext hevent => hnext.step hc hevent) h hsteps).last

/-- **One round**, and the node has got on. -/
theorem Synchronising.round (h : Synchronising crypto genuine root last node)
    (hc : Continuation crypto genuine root last)
    (hlt : node.base.blockchain.getNewestBlockId < last) {before after : List FetchEvent}
    {peer : PeerId}
    (hsteps : Run.AllSteps (FetchingNode.step crypto) (Cooperates genuine last) node
      (before ++ .collectionBlockReceived peer
        (genuine (node.base.blockchain.getNewestBlockId + 1)) true :: after))
    (hbefore : WholeLoop before) (hafter : WholeLoop after) :
    node.base.blockchain.getNewestBlockId <
      (Run.exec (FetchingNode.step crypto) node (before ++ .collectionBlockReceived peer
        (genuine (node.base.blockchain.getNewestBlockId + 1)) true ::
          after)).base.blockchain.getNewestBlockId := by
  obtain ⟨hfirst, hreply, hrest⟩ := Run.AllSteps.append.1 hsteps
  have hasked := h.exec hc hfirst
  have hanswered := hasked.answered hc hlt (h.asks hc hlt hfirst hbefore) peer
  rw [Run.exec_append, Run.exec_cons]
  exact (hasked.step hc hreply).gets hc hanswered hrest hafter

/-- **All rounds.** -/
theorem Synchronising.rounds (hc : Continuation crypto genuine root last)
    (rounds : List (List FetchEvent)) (h : Synchronising crypto genuine root last node)
    (hsteps : Run.AllSteps (FetchingNode.step crypto) (Cooperates genuine last) node
      rounds.flatten)
    (hanswered : Answered crypto genuine last node rounds) :
    min last.toNat (node.base.blockchain.getNewestBlockId.toNat + rounds.length) ≤
      (Run.exec (FetchingNode.step crypto) node
        rounds.flatten).base.blockchain.getNewestBlockId.toNat := by
  induction rounds generalizing node with
  | nil => exact min_le_right _ _
  | cons round rounds ih =>
    rw [List.flatten_cons, Run.AllSteps.append] at hsteps
    obtain ⟨hround, hrest⟩ := hsteps
    obtain ⟨hanswer, hothers⟩ := hanswered
    have hlater := ih (h.exec hc hround) hrest hothers
    rw [List.flatten_cons, Run.exec_append, List.length_cons]
    by_cases hlt : node.base.blockchain.getNewestBlockId < last
    · obtain ⟨before, peer, after, rfl, hbefore, hafter⟩ := hanswer hlt
      have hgrown := UInt64.lt_iff_toNat_lt.1 (h.round hc hlt hround hbefore hafter)
      omega
    · -- the node has everything, and keeps it
      have hkept : Run.AllStates (FetchingNode.step crypto)
          (fun next => Synchronising crypto genuine root last next ∧
            last ≤ next.base.blockchain.getNewestBlockId) node round := by
        refine Run.AllStates.of_steps ?_ ⟨h, not_lt.1 hlt⟩ hround
        rintro next event ⟨hnext, hle⟩ hevent
        exact ⟨hnext.step hc hevent, hle.trans (hnext.chain_step hc hevent).2.1⟩
      have hstill := UInt64.le_iff_toNat_le.1 hkept.last.2
      omega

theorem rooted_of_received (peer : PeerId) (now : BlockchainTime) (peers : Nat)
    (hrunning : node.state.running = true) (hthread : node.state.thread = .fetchingBaseline)
    (hagents : node.state.blockFetchAgentMap = ∅)
    (hreceived : node.receivedBaseline = some (peer, root))
    (hnewer : node.base.blockchain.getNewestBlockId ≤ root.header.blockUid)
    (hvalid : validateBlockWithoutContext crypto root = true) :
    (node.step crypto (.fetchBlocksThread now peers)).Rooted crypto root := by
  simp only [FetchingNode.step, act, fetchBlocksThread, hthread, cycleFetchBaseline,
    if_pos hrunning, hreceived, if_pos hnewer, if_pos hvalid]
  exact ⟨hrunning, rfl, hagents, hvalid, node.base.blockchain, rfl⟩

theorem Rooted.synchronising (h : node.Rooted crypto root)
    (hc : Continuation crypto genuine root last) :
    Synchronising crypto genuine root last node := by
  obtain ⟨bc, hchain⟩ := h.chain
  obtain ⟨htype, hne⟩ := validateBlockWithoutContext_header h.valid
  have hreplayed : Replayed crypto (bc.setRootBlock root) := Replayed.setRootBlock hne htype
  have hids : (bc.setRootBlock root).metaData = ⟨root.header.blockUid, root.header.blockUid⟩ := by
    rw [Blockchain.setRootBlock, if_neg hne]
  have hnewest : (bc.setRootBlock root).getNewestBlockId = root.header.blockUid :=
    congrArg MetaData.newestBlockId hids
  have hrootId : (bc.setRootBlock root).getRootBlockId = root.header.blockUid :=
    congrArg MetaData.rootBlockId hids
  have hstored : (bc.setRootBlock root).getBlock root.header.blockUid = some (.baseline root) := by
    rw [Blockchain.setRootBlock, if_neg hne]
    exact Cache.getBlock_addBlock_self _ _
  refine ⟨h.running, ?_, ⟨fun _ => ?_, ?_, ?_⟩, ?_, ?_, ?_, ?_, ?_⟩
  · rw [h.thread]
    simp [FetchThread.nextIdToFetch]
  · rw [hchain]
    exact hreplayed.tipOk
  · rw [h.noAgents]
    exact fun entry hentry => absurd hentry (OrdMap.not_mem_empty entry)
  · intro nextIdToFetch hnext uid
    rw [h.thread] at hnext
    cases hnext
    rw [h.noAgents, hchain, hnewest, mem_between, UInt64.sub_self]
    exact iff_of_false List.not_mem_nil (not_lt.2 (UInt64.zero_le))
  · rw [h.noAgents]
    exact Nat.zero_le _
  · rw [h.noAgents]
    exact fun entry hentry => absurd hentry (OrdMap.not_mem_empty entry)
  · rw [hchain]
    refine ⟨hreplayed, ?_, ?_⟩
    · rw [mem_rootBlock, hrootId]
      exact hstored
    · rw [blocksSinceRoot_eq_nil (hnewest.trans hrootId.symm), hnewest, Nat.sub_self]
      rfl
  · rw [hchain, hnewest]
    exact hc.root_le
  · intro entry hentry
    rw [h.noAgents] at hentry
    exact absurd hentry (OrdMap.not_mem_empty entry)

/-- **The chain of the network is complete for `isSynchronized`**, if there is a block after the
root and the clock is not ahead. -/
theorem isSynchronized_of_newest (hc : Continuation crypto genuine root last)
    (hvalid : root.header.blockUid ≠ 0)
    (hroot : node.base.blockchain.getRootBlockId = root.header.blockUid)
    (hnewest : node.base.blockchain.getNewestBlockId = last)
    (hlt : root.header.blockUid < last)
    (hclock : root.header.blockUid ≤ node.state.globalBlockchainNewestBlockId)
    (hclock' : node.state.globalBlockchainNewestBlockId ≤ last) :
    node.isSynchronized = true := by
  have hshort := hc.length_lt hvalid
  have hleft := hc.idsLeft
  have hpos : root.header.blockUid.toNat ≠ 0 := fun h0 => hvalid (UInt64.toNat_inj.1 h0)
  have hclock0 : node.state.globalBlockchainNewestBlockId ≠ 0 := by
    intro h0
    rw [h0, UInt64.le_iff_toNat_le, UInt64.toNat_zero] at hclock
    omega
  rw [UInt64.lt_iff_toNat_lt] at hlt
  rw [UInt64.le_iff_toNat_le] at hclock hclock'
  -- There are fewer than 720 blocks, so no cast to 32 bits loses anything.
  have hfetched : (last + 1 - root.header.blockUid).toUInt32.toNat =
      last.toNat + 1 - root.header.blockUid.toNat := by
    rw [UInt64.toNat_toUInt32, UInt64.toNat_sub, UInt64.toNat_add, UInt64.toNat_one]
    omega
  have hall : (node.state.globalBlockchainNewestBlockId - root.header.blockUid +
      1).toUInt32.toNat = node.state.globalBlockchainNewestBlockId.toNat + 1 -
        root.header.blockUid.toNat := by
    rw [UInt64.toNat_toUInt32, UInt64.toNat_add, UInt64.toNat_sub, UInt64.toNat_one]
    omega
  have hsome : ¬ (last + 1 ≤ root.header.blockUid ∨
      node.state.globalBlockchainNewestBlockId < root.header.blockUid ∨
        root.header.blockUid = last) := by
    rw [UInt64.le_iff_toNat_le, UInt64.lt_iff_toNat_lt, ← UInt64.toNat_inj, UInt64.toNat_add,
      UInt64.toNat_one]
    omega
  have hpercent : 100 ≤ 100 * (last + 1 - root.header.blockUid).toUInt32 /
      (node.state.globalBlockchainNewestBlockId - root.header.blockUid + 1).toUInt32 := by
    have hproduct : (100 * (last + 1 - root.header.blockUid).toUInt32).toNat =
        100 * (last.toNat + 1 - root.header.blockUid.toNat) := by
      rw [UInt32.toNat_mul, hfetched]
      show 100 * _ % 2 ^ 32 = _
      omega
    rw [UInt32.le_iff_toNat_le, UInt32.toNat_div, hproduct, hall, Nat.le_div_iff_mul_le (by omega)]
    exact Nat.mul_le_mul_left 100 (by omega)
  rw [isSynchronized, CycleStateFetchBlockchain.percentSynchronizationDone, hroot, hnewest,
    if_neg hclock0, if_neg hsome]
  split_ifs
  · rw [beq_iff_eq]
    show (if _ then _ else _) = _
    split_ifs with hle
    · exact UInt32.le_antisymm hle hpercent
    · rfl
  · rfl

/-- **Synchronisation ends.** A node that has just set its root has the whole chain of the network
after one answered round for each block, and has reported nobody. It notices this, if there is a
block after the root and the clock has not been ahead of the chain. -/
theorem synchronises (hc : Continuation crypto genuine root last) (hroot : node.Rooted crypto root)
    (rounds : List (List FetchEvent))
    (hsteps : Run.AllSteps (FetchingNode.step crypto) (Cooperates genuine last) node
      rounds.flatten)
    (hanswered : Answered crypto genuine last node rounds)
    (henough : last.toNat ≤ root.header.blockUid.toNat + rounds.length) :
    (Run.exec (FetchingNode.step crypto) node rounds.flatten).base.blockchain.getNewestBlockId =
        last ∧
      (Run.exec (FetchingNode.step crypto) node rounds.flatten).base.blockchain.blocksSinceRoot =
        genuineAfter genuine root.header.blockUid (last.toNat - root.header.blockUid.toNat) ∧
      Blockchain.SameView
        (replay crypto root (genuineAfter genuine root.header.blockUid
          (last.toNat - root.header.blockUid.toNat)))
        (Run.exec (FetchingNode.step crypto) node rounds.flatten).base.blockchain ∧
      Run.AllSteps (FetchingNode.step crypto)
        (fun node event => ∀ effect, .manager effect ∉ (node.act crypto event).2) node
        rounds.flatten ∧
      (root.header.blockUid < last →
        root.header.blockUid ≤ (Run.exec (FetchingNode.step crypto) node
          rounds.flatten).state.globalBlockchainNewestBlockId →
        (Run.exec (FetchingNode.step crypto) node
          rounds.flatten).state.globalBlockchainNewestBlockId ≤ last →
        (Run.exec (FetchingNode.step crypto) node rounds.flatten).isSynchronized = true) := by
  have hstart := hroot.synchronising hc
  have hend := hstart.exec hc hsteps
  have hfar := hstart.rounds hc rounds hsteps hanswered
  have hnewest : (Run.exec (FetchingNode.step crypto) node
      rounds.flatten).base.blockchain.getNewestBlockId = last := by
    refine le_antisymm hend.newest_le ?_
    have hfirst := UInt64.le_iff_toNat_le.1 hstart.chain.root_le_newest
    rw [UInt64.le_iff_toNat_le]
    omega
  have hstored := hend.chain.stored
  rw [hnewest] at hstored
  refine ⟨hnewest, hstored, ?_, ?_, ?_⟩
  · rw [← hstored]
    exact hend.chain.view root hend.chain.rootBlock
  · exact (Run.AllSteps.with_invariant (fun _ _ hnext hevent => hnext.step hc hevent) hstart
      hsteps).mono fun _ _ hnext => hnext.1.nobody_reported hc hnext.2
  · exact isSynchronized_of_newest hc (validateBlockWithoutContext_header hroot.valid).2
      hend.chain.rootId hnewest

end FetchingNode

namespace Sample

/-- The baseline has arrived. -/
def baselineReceived : FetchingNode :=
  Run.exec (FetchingNode.step .sample) { base := freshNode } (fetchRoot.take 4)

/-- The root has been set. -/
def rooted : FetchingNode := baselineReceived.step .sample (.fetchBlocksThread 0 1)

/-- The network is at the block `3`. -/
def cycle3 : BlockchainTime := (12892961 + 3) * cycleLengthMs

/-- The second block arrives before the first one, and in the second round nothing is left to
do. -/
def fetchRounds : List (List FetchEvent) :=
  [fetchRound ++ [.collectionBlockReceived [1] partPaid true] ++
      .collectionBlockReceived [2] mining true ::
        List.replicate 3 (.fetchBlocksThread cycle3 1), [.onCycle cycle3, .cacheThread]]

theorem continuation_genuineBlock :
    Continuation .sample genuineBlock (Blockchain.emptyBaseline .sample) 3 where
  root_le := by decide +kernel
  follows := by decide +kernel
  noBaseline uid hroot hle := by
    have hroot : 1 < uid.toNat := UInt64.lt_iff_toNat_lt.1 hroot
    have hle : uid.toNat ≤ 3 := UInt64.le_iff_toNat_le.1 hle
    obtain h | h : uid.toNat = (2 : UInt64).toNat ∨ uid.toNat = (3 : UInt64).toNat := by
      show uid.toNat = 2 ∨ uid.toNat = 3
      omega
    all_goals
      rw [UInt64.toNat_inj.1 h]
      decide +kernel
  idsLeft := by decide

theorem rooted_emptyBaseline : rooted.Rooted .sample (Blockchain.emptyBaseline .sample) :=
  FetchingNode.rooted_of_received [1] 0 1 (by decide +kernel) (by decide +kernel)
    (OrdMap.isEmpty_iff.1 (by decide +kernel)) (by decide +kernel) (by decide +kernel)
    (by decide +kernel)

theorem answered_fetchRounds :
    FetchingNode.Answered .sample genuineBlock 3 rooted fetchRounds := by
  have hnewest : rooted.base.blockchain.getNewestBlockId = 1 := by decide +kernel
  refine ⟨fun _ => ⟨fetchRound ++ [.collectionBlockReceived [1] partPaid true], [2],
    List.replicate 3 (.fetchBlocksThread cycle3 1), ?_, by decide, by decide⟩,
    fun hlt => absurd hlt (by decide +kernel), trivial⟩
  rw [hnewest]
  rfl

end Sample

/-- The blocks `2` and `3` are fetched, in the wrong order. -/
theorem fetchRounds_synchronise :
    (Run.exec (FetchingNode.step .sample) Sample.rooted
        Sample.fetchRounds.flatten).base.blockchain.blocksSinceRoot =
          [Sample.mining, Sample.partPaid] ∧
      (Run.exec (FetchingNode.step .sample) Sample.rooted
        Sample.fetchRounds.flatten).isSynchronized = true := by
  have h := FetchingNode.synchronises Sample.continuation_genuineBlock Sample.rooted_emptyBaseline
    Sample.fetchRounds (by decide +kernel) Sample.answered_fetchRounds (by decide)
  exact ⟨h.2.1, h.2.2.2.2 (by decide) (by decide +kernel) (by decide +kernel)⟩

end SwabianCoin
