import SwabianCoin.HonestPeers
import SwabianCoin.Verdicts

/-!
# Answers to own questions

While a node fetches the chain it asks its peers for blocks, at random and again every two seconds.
Answers may take any time. One that comes when the node has moved on to `IntroduceBlock` is
`unexpected` there, and its sender is reported for it; in `Collect` and `IntroduceBaseline` it is
ignored. One that comes in time is judged by `processFinishedAgents`.

The machine of this module remembers which questions the node has sent to whom. A peer that only
answers them, and with genuine blocks, is spared as long as no answer of its comes during
`IntroduceBlock` and its blocks are judged on top of genuine ones.
-/

namespace SwabianCoin

open Machine

variable {crypto : CryptoHelper}

/-! ## Statement -/

/-- The peer that is passed to `reportViolation`. -/
def Effect.reported : Effect → Option PeerId
  | .reportViolation peer _ => some peer
  | _ => none

def FetchEffect.reported : FetchEffect → Option PeerId
  | .manager effect => effect.reported
  | _ => none

theorem FetchEffect.eq_of_reported {effect : FetchEffect} {peer : PeerId}
    (h : effect.reported = some peer) :
    ∃ ground, effect = .manager (.reportViolation peer ground) := by
  cases effect with
  | manager effect =>
    cases effect with
    | reportViolation reported ground =>
      cases h
      exact ⟨ground, rfl⟩
    | _ => cases h
  | _ => cases h

/-- A question goes to one of the connected peers, if to anybody. -/
def FetchEffect.sentTo (receiver : FetchEffect → Option PeerId) (effect : FetchEffect) :
    Option (PeerId × FetchEffect) :=
  match effect with
  | .manager _ => none
  | _ => (receiver effect).map (·, effect)

/-- The baseline that an event delivers, with its sender and whether it is a reply. -/
def NodeEvent.baseline : NodeEvent → Option (PeerId × BaselineBlock × Bool)
  | .fetch (.baselineBlockReceived peer block reply) => some (peer, block, reply)
  | _ => none

/-- The collection that an event delivers. A message that comes while the chain is fetched is two
events, one for the state and one for the monitor of the peers. -/
def NodeEvent.collection : NodeEvent → Option (PeerId × CollectionBlock × Bool)
  | .fetch (.collectionBlockReceived peer block reply) => some (peer, block, reply)
  | .manager (.collectionBlockReceived peer block reply _) => some (peer, block, reply)
  | _ => none

/-- A node with the questions it has sent. -/
structure AskingNode where
  node : FetchingNode
  asked : List (PeerId × FetchEffect) := []

/-- An event, and whom the questions go to that it makes the node ask. -/
structure AskingEvent where
  event : NodeEvent
  receiver : FetchEffect → Option PeerId

namespace AskingNode

def step (crypto : CryptoHelper) (s : AskingNode) (e : AskingEvent) : AskingNode where
  node := s.node.nodeStep crypto e.event
  asked := s.asked ++ (s.node.nodeEffects crypto e.event).filterMap (·.sentTo e.receiver)

/-- What the peer sends are replies to questions it has got, with genuine blocks. -/
def OnlyAnswers (crypto : CryptoHelper) (genuine : BlockUid → CollectionBlock) (peer : PeerId)
    (s : AskingNode) (e : AskingEvent) : Prop :=
  (∀ message ∈ e.event.baseline, message.1 = peer →
      message.2.2 = true ∧ (peer, .askForLastBaselineBlock) ∈ s.asked ∧
        validateBlockWithoutContext crypto message.2.1 = true) ∧
    ∀ message ∈ e.event.collection, message.1 = peer →
      message.2.2 = true ∧ (peer, .askForBlock message.2.1.header.blockUid) ∈ s.asked ∧
        message.2.1 = genuine message.2.1.header.blockUid

/-- The event does not pass the peer to `reportViolation`. -/
def NotPunished (crypto : CryptoHelper) (peer : PeerId) (s : AskingNode) (e : AskingEvent) : Prop :=
  ∀ effect ∈ s.node.nodeEffects crypto e.event, effect.reported ≠ some peer

/-- The event is a call of `processFinishedAgents`. -/
def processesAt (s : AskingNode) (e : AskingEvent) : Bool :=
  match e.event with
  | .fetch (.fetchBlocksThread _ _) => s.node.processesAgents
  | _ => false

/-- No collection of the peer comes during `IntroduceBlock`, and those that are judged stand on a
root and on blocks that are genuine. -/
def InTime (crypto : CryptoHelper) (genuine : BlockUid → CollectionBlock) (peer : PeerId)
    (s : AskingNode) (e : AskingEvent) : Prop :=
  (∀ message ∈ e.event.collection, message.1 = peer →
      s.node.base.currentState ≠ some .introduceBlock) ∧
    (s.processesAt e = true →
      (∀ root ∈ s.node.base.blockchain.rootBlock, ∀ reply ∈ s.node.repliesNow, reply.1 = peer →
        FollowsRoot crypto genuine root reply.2.header.blockUid) ∧
      s.node.GenuineBefore genuine peer)

instance (genuine : BlockUid → CollectionBlock) (peer : PeerId) (s : AskingNode) (e : AskingEvent) :
    Decidable (s.OnlyAnswers crypto genuine peer e) :=
  inferInstanceAs (Decidable (_ ∧ _))

instance (peer : PeerId) (s : AskingNode) (e : AskingEvent) :
    Decidable (s.NotPunished crypto peer e) :=
  inferInstanceAs (Decidable (∀ effect ∈ _, _))

instance (genuine : BlockUid → CollectionBlock) (peer : PeerId) (s : AskingNode) (e : AskingEvent) :
    Decidable (s.InTime crypto genuine peer e) :=
  inferInstanceAs (Decidable (_ ∧ (_ → _ ∧ _)))

end AskingNode

/-! ## Who is reported in the regular cycle -/

namespace BlockchainManager

variable {m : BlockchainManager} {sender peer : PeerId} {effect : Effect}

theorem reported_reportViolation {ground : Violation}
    (h : effect ∈ (m.reportViolation sender ground).2) (hreported : effect.reported = some peer) :
    sender = peer := by
  rcases mem_reportViolation h with rfl | rfl
  · exact Option.some.inj hreported
  · cases hreported

theorem reported_setState {state : CycleState} {now : BlockchainTime}
    (h : effect ∈ (m.setState crypto state now).2) : effect.reported = none := by
  have hexit : ∀ effect ∈ (m.exitState crypto).2, effect.reported = none := by
    unfold exitState
    split
    · simp [exitIntroduceBlock, Effect.reported]
    · simp
  have henter : ∀ m : BlockchainManager, ∀ effect ∈ (m.enterState crypto state now).2,
      effect.reported = none := by
    cases state <;> simp [enterState, enterIntroduceBlock, Effect.reported]
  unfold setState at h
  split_ifs at h
  · exact absurd h List.not_mem_nil
  · rcases List.mem_append.1 h with h | h
    · exact hexit effect h
    · exact henter _ effect h

theorem reported_considerBlock {block : CollectionBlock}
    (h : effect ∈ (m.considerBlock crypto sender block).2)
    (hreported : effect.reported = some peer) : sender = peer := by
  rcases considerBlock_cases crypto m sender block with
    ⟨-, heq⟩ | ⟨-, -, -, heq⟩ | ⟨-, -, -, heq⟩ | ⟨-, -, heq⟩ <;> rw [heq] at h
  · exact absurd h List.not_mem_nil
  · cases effect with
    | reportViolation reported ground =>
      exact absurd h (reportViolation_not_mem_mergeBlock crypto _ block reported ground)
    | _ => cases hreported
  · exact absurd h List.not_mem_nil
  · exact reported_reportViolation h hreported

theorem reported_blockReceivedIntroduceBlock {block : CollectionBlock} {reply : Bool}
    (h : effect ∈ (m.blockReceivedIntroduceBlock crypto sender block reply).2)
    (hreported : effect.reported = some peer) : sender = peer := by
  unfold blockReceivedIntroduceBlock at h
  split_ifs at h
  · exact reported_reportViolation h hreported
  · exact reported_considerBlock h hreported

/-- The monitor does not look at replies. -/
theorem reported_monitorMessage {reply : Bool} {now : BlockchainTime}
    (h : effect ∈ (m.monitorMessage sender reply now).2)
    (hreported : effect.reported = some peer) : sender = peer ∧ reply = false := by
  unfold monitorMessage at h
  split_ifs at h with hreply
  · exact absurd h List.not_mem_nil
  · refine ⟨?_, Bool.eq_false_iff.2 hreply⟩
    dsimp only at h
    split_ifs at h
    · exact reported_reportViolation h hreported
    · exact absurd h List.not_mem_nil

/-- **Who is reported**: the sender of a message, and of a reply only during `IntroduceBlock`. -/
theorem reported_effects {event : ManagerEvent} (h : effect ∈ m.effects crypto event)
    (hreported : effect.reported = some peer) :
    ∃ block reply now, event = .collectionBlockReceived peer block reply now ∧
      (reply = true → m.currentState = some .introduceBlock) := by
  cases event with
  | advance now =>
    rw [reported_setState h] at hreported
    cases hreported
  | onCycle now creationSignature transactionSignature =>
    simp only [effects, act, onCycle, cycleIntroduceBlock] at h
    split at h
    · exact absurd h List.not_mem_nil
    · split_ifs at h
      · rw [List.mem_singleton.1 h] at hreported
        cases hreported
      · exact absurd h List.not_mem_nil
    · exact absurd h List.not_mem_nil
  | collectionBlockReceived sender block reply now =>
    rcases List.mem_append.1 h with hreceived | hmonitored
    · split at hreceived
      case _ hstate =>
        rw [reported_blockReceivedIntroduceBlock hreceived hreported]
        exact ⟨block, reply, now, rfl, fun _ => hstate⟩
      case _ => exact absurd hreceived List.not_mem_nil
    · obtain ⟨rfl, rfl⟩ := reported_monitorMessage hmonitored hreported
      exact ⟨block, false, now, rfl, fun hreply => by cases hreply⟩
  | foundHash data => exact absurd h List.not_mem_nil
  | triggerTransaction receiver fraction => exact absurd h List.not_mem_nil

end BlockchainManager

/-! ## The baseline that is kept -/

namespace FetchingNode

variable {node : FetchingNode}

theorem receivedBaseline_processAgents
    (entries : List (BlockUid × BlockFetchAgent CollectionBlock)) (node : FetchingNode) :
    (node.processAgents crypto entries).1.receivedBaseline = node.receivedBaseline := by
  induction entries generalizing node with
  | nil => rfl
  | cons first rest ih =>
    obtain ⟨uid, agent⟩ := first
    rw [processAgents]
    cases agent.receivedBlock with
    | none => rfl
    | some reply => exact ih _

theorem receivedBaseline_restartBaselineAgent (node : FetchingNode) (now : BlockchainTime) :
    (node.restartBaselineAgent now).receivedBaseline = none := by
  unfold receivedBaseline restartBaselineAgent
  cases node.state.baselineBlockFetchAgent <;> rfl

/-- The thread keeps what has arrived or forgets it. -/
theorem receivedBaseline_fetchBlocksThread (crypto : CryptoHelper) (node : FetchingNode)
    (now : BlockchainTime) (numConnectedPeers : Nat) :
    (node.fetchBlocksThread crypto now numConnectedPeers).1.receivedBaseline = none ∨
      (node.fetchBlocksThread crypto now numConnectedPeers).1.receivedBaseline =
        node.receivedBaseline := by
  unfold fetchBlocksThread
  cases node.state.thread with
  | joined => exact Or.inr rfl
  | waitingForPeers =>
    dsimp only
    split_ifs <;> exact Or.inr rfl
  | callingFetchBaseline => exact Or.inl rfl
  | fetchingBaseline =>
    simp only [cycleFetchBaseline]
    split_ifs
    · split
      · exact Or.inr rfl
      · split_ifs
        · exact Or.inl rfl
        · exact Or.inl (receivedBaseline_restartBaselineAgent _ now)
        · exact Or.inl (receivedBaseline_restartBaselineAgent node now)
    · exact Or.inl rfl
  | loopHead nextIdToFetch =>
    dsimp only
    split_ifs
    · exact Or.inr (receivedBaseline_processAgents _ node)
    · exact Or.inr rfl
  | refilling nextIdToFetch => exact Or.inr rfl
  | comparing nextIdToFetch =>
    dsimp only
    split_ifs <;> exact Or.inr rfl

theorem receivedBaseline_onCycle (node : FetchingNode) (now : BlockchainTime) :
    (node.onCycle now).1.receivedBaseline = node.receivedBaseline := by
  unfold receivedBaseline onCycle
  cases node.state.baselineBlockFetchAgent with
  | none => rfl
  | some agent =>
    simp only [Option.map_some, Option.bind_some, BlockFetchAgent.onCycle]
    split_ifs <;> rfl

theorem mem_receivedBaseline_baselineBlockReceived {sender : PeerId} {block : BaselineBlock}
    {isReply : Bool} {reply : PeerId × BaselineBlock}
    (h : reply ∈ (node.baselineBlockReceived sender block isReply).receivedBaseline) :
    reply = (sender, block) ∨ reply ∈ node.receivedBaseline := by
  unfold baselineBlockReceived at h
  split_ifs at h
  · unfold receivedBaseline at h ⊢
    cases hagent : node.state.baselineBlockFetchAgent with
    | none => simp [hagent] at h
    | some agent =>
      simp only [hagent, Option.map_some, Option.bind_some,
        BlockFetchAgent.blockReceivedCallback] at h ⊢
      split_ifs at h
      · exact Or.inl (Option.some.inj h).symm
      · exact Or.inr h
  · exact Or.inr h

/-- **What holds of every baseline that is sent holds of the one that is kept.** -/
theorem receivedBaseline_step {Q : PeerId → BaselineBlock → Prop} {event : FetchEvent}
    (h : ∀ reply ∈ node.receivedBaseline, Q reply.1 reply.2)
    (hevent : ∀ sender block isReply, event = .baselineBlockReceived sender block isReply →
      Q sender block) :
    ∀ reply ∈ (node.step crypto event).receivedBaseline, Q reply.1 reply.2 := by
  have hacts := node.acts_step crypto event
  generalize node.step crypto event = next at hacts ⊢
  cases hacts with
  | ignored => exact h
  | onEnter => exact h
  | onCycle now =>
    rw [node.receivedBaseline_onCycle now]
    exact h
  | onExit now => exact h
  | baselineBlockReceived sender block isReply =>
    intro reply hreply
    rcases mem_receivedBaseline_baselineBlockReceived hreply with rfl | hkept
    · exact hevent sender block isReply rfl
    · exact h reply hkept
  | collectionBlockReceived sender block isReply =>
    unfold collectionBlockReceived
    split_ifs <;> exact h
  | fetchBlocksThread now numConnectedPeers =>
    rcases node.receivedBaseline_fetchBlocksThread crypto now numConnectedPeers with heq | heq <;>
      rw [heq]
    · exact fun reply hreply => by cases hreply
    · exact h
  | cacheThread => exact h
  | elsewhere base => exact h

/-! ## Who is reported while the chain is fetched -/

theorem reported_onCycle {now : BlockchainTime} {effect : FetchEffect}
    (h : effect ∈ (node.onCycle now).2) : effect.reported = none := by
  rcases List.mem_append.1 h with hbaseline | hblock
  · split_ifs at hbaseline
    · rw [List.mem_singleton.1 hbaseline]
      rfl
    · exact absurd hbaseline List.not_mem_nil
  · obtain ⟨entry, -, rfl⟩ := List.mem_map.1 hblock
    rfl

theorem reported_manager {effects : List Effect} {effect : FetchEffect} {peer : PeerId}
    (h : effect ∈ effects.map .manager) (hreported : effect.reported = some peer) :
    ∃ managerEffect ∈ effects, managerEffect.reported = some peer := by
  obtain ⟨managerEffect, hmem, rfl⟩ := List.mem_map.1 h
  exact ⟨managerEffect, hmem, hreported⟩

theorem reported_cycleFetchBaseline {now : BlockchainTime} {effect : FetchEffect} {peer : PeerId}
    (h : effect ∈ (node.cycleFetchBaseline crypto now).2)
    (hreported : effect.reported = some peer) :
    ∃ block, (peer, block) ∈ node.receivedBaseline ∧
      validateBlockWithoutContext crypto block ≠ true := by
  unfold cycleFetchBaseline at h
  split_ifs at h
  · cases hreceived : node.receivedBaseline with
    | none =>
      simp only [hreceived] at h
      exact absurd h List.not_mem_nil
    | some reply =>
      obtain ⟨sender, block⟩ := reply
      simp only [hreceived] at h
      split_ifs at h with hnewer hvalid
      · exact absurd h List.not_mem_nil
      · obtain ⟨managerEffect, hmem, hreports⟩ := reported_manager h hreported
        rw [← BlockchainManager.reported_reportViolation hmem hreports]
        exact ⟨block, rfl, hvalid⟩
      · exact absurd h List.not_mem_nil
  · exact absurd h List.not_mem_nil

/-- The thread reports the sender of such a baseline, or that of a block that
`processFinishedAgents` refuses. -/
theorem reported_fetchBlocksThread {now : BlockchainTime} {numConnectedPeers : Nat}
    {effect : FetchEffect} {peer : PeerId}
    (h : effect ∈ (node.fetchBlocksThread crypto now numConnectedPeers).2)
    (hreported : effect.reported = some peer) :
    (∃ block, (peer, block) ∈ node.receivedBaseline ∧
        validateBlockWithoutContext crypto block ≠ true) ∨
      node.processesAgents = true ∧ effect ∈ (node.processFinishedAgents crypto).2 := by
  unfold fetchBlocksThread at h
  cases hthread : node.state.thread with
  | fetchingBaseline =>
    rw [hthread] at h
    exact Or.inl (reported_cycleFetchBaseline h hreported)
  | loopHead nextIdToFetch =>
    simp only [hthread] at h
    split_ifs at h with hrunning
    · refine Or.inr ⟨?_, h⟩
      unfold processesAgents
      rw [hthread]
      exact hrunning
    · exact absurd h List.not_mem_nil
  | waitingForPeers =>
    simp only [hthread] at h
    split_ifs at h <;> exact absurd h List.not_mem_nil
  | comparing nextIdToFetch =>
    simp only [hthread] at h
    split_ifs at h <;> exact absurd h List.not_mem_nil
  | _ =>
    simp only [hthread] at h
    exact absurd h List.not_mem_nil

theorem reported_act {event : FetchEvent} {effect : FetchEffect} {peer : PeerId}
    (h : effect ∈ (node.act crypto event).2) (hreported : effect.reported = some peer) :
    ∃ now numConnectedPeers, event = .fetchBlocksThread now numConnectedPeers := by
  cases event with
  | fetchBlocksThread now numConnectedPeers => exact ⟨now, numConnectedPeers, rfl⟩
  | onCycle now =>
    simp only [act] at h
    split_ifs at h
    · rw [reported_onCycle h] at hreported
      cases hreported
    · exact absurd h List.not_mem_nil
  | cacheThread => exact absurd h List.not_mem_nil
  | _ =>
    simp only [act] at h
    split_ifs at h <;> exact absurd h List.not_mem_nil

end FetchingNode

/-! ## Runs -/

namespace AskingNode

variable {genuine : BlockUid → CollectionBlock} {peer : PeerId} {s : AskingNode} {e : AskingEvent}

/-- The chain is in order while there is a thread, and what is kept of the peer is genuine. -/
structure AnswersInv (crypto : CryptoHelper) (genuine : BlockUid → CollectionBlock) (peer : PeerId)
    (node : FetchingNode) : Prop where
  honest : node.HonestInv crypto genuine peer
  baseline : ∀ reply ∈ node.receivedBaseline, reply.1 = peer →
    validateBlockWithoutContext crypto reply.2 = true

theorem AnswersInv.step (h : AnswersInv crypto genuine peer s.node)
    (hanswers : s.OnlyAnswers crypto genuine peer e) :
    AnswersInv crypto genuine peer (s.step crypto e).node := by
  obtain ⟨event, receiver⟩ := e
  show AnswersInv crypto genuine peer (s.node.nodeStep crypto event)
  rcases s.node.nodeStep_cases crypto event with
    ⟨heq, -⟩ | ⟨-, -, heq, -⟩ | ⟨fetchEvent, rfl, -, -, heq, -⟩ |
      ⟨managerEvent, rfl, hmay, heq, -⟩ <;> rw [heq]
  · exact h
  · exact ⟨⟨fun _ => (fetchClosed_replayed crypto).initEmptyChain _, h.honest.replies⟩, h.baseline⟩
  · refine ⟨⟨(fetchClosed_replayed crypto).step fetchEvent h.honest.chain, ?_⟩, ?_⟩
    · refine h.honest.replies.step fun sender block reply hevent hsender => ?_
      subst hevent
      exact (hanswers.2 _ rfl hsender).2.2
    · refine FetchingNode.receivedBaseline_step (Q := fun sender block => sender = peer →
        validateBlockWithoutContext crypto block = true) h.baseline ?_
      intro sender block reply hevent hsender
      subst hevent
      exact (hanswers.1 _ rfl hsender).2.2
  · refine ⟨⟨fun hthread => ?_, h.honest.replies⟩, h.baseline⟩
    rcases hmay with hleft | hstays
    · exact absurd hleft.2 hthread
    · exact (h.honest.chain hthread).sameBalances (s.node.base.step_sameBalances crypto hstays)

theorem AnswersInv.notPunished (h : AnswersInv crypto genuine peer s.node)
    (hanswers : s.OnlyAnswers crypto genuine peer e) (htime : s.InTime crypto genuine peer e) :
    s.NotPunished crypto peer e := by
  obtain ⟨event, receiver⟩ := e
  intro effect heffect hreported
  rcases s.node.nodeStep_cases crypto event with
    ⟨-, heq⟩ | ⟨-, -, -, heq⟩ | ⟨fetchEvent, rfl, -, -, -, heq⟩ |
      ⟨managerEvent, rfl, -, -, heq⟩ <;> rw [heq] at heffect
  · exact absurd heffect List.not_mem_nil
  · exact absurd heffect List.not_mem_nil
  · obtain ⟨now, numConnectedPeers, rfl⟩ := FetchingNode.reported_act heffect hreported
    rcases FetchingNode.reported_fetchBlocksThread heffect hreported with
      ⟨block, hblock, hinvalid⟩ | ⟨hprocesses, hmem⟩
    · exact hinvalid (h.baseline (peer, block) hblock rfl)
    · obtain ⟨hfollows, hbefore⟩ := htime.2 hprocesses
      have hchain := h.honest.chain fun hjoined => by
        simp [FetchingNode.processesAgents, hjoined] at hprocesses
      obtain ⟨ground, rfl⟩ := FetchEffect.eq_of_reported hreported
      exact FetchingNode.not_reports hchain h.honest.replies hfollows hbefore ground hmem
  · obtain ⟨managerEffect, hmem, hreports⟩ := FetchingNode.reported_manager heffect hreported
    obtain ⟨block, reply, now, rfl, hintroducing⟩ :=
      BlockchainManager.reported_effects hmem hreports
    -- the peer sends replies only, so the monitor has not seen the message
    have hreply := (hanswers.2 (peer, block, reply) rfl rfl).1
    exact htime.1 (peer, block, reply) rfl rfl (hintroducing hreply)

/-- **When answers are not punished.** In every run, with whatever other peers send, a peer that
only answers questions of the node with genuine blocks is not reported, if no answer comes during
`IntroduceBlock`, and every time `processFinishedAgents` is called, the root, the stored blocks and
the replies before an answer are the genuine ones. -/
theorem notPunished_of_inTime (crypto : CryptoHelper) (genuine : BlockUid → CollectionBlock)
    (peer : PeerId) (ourPublicKey : PublicKeyPEM) (before : Blockchain) (events : List AskingEvent)
    (hanswers : Run.AllSteps (AskingNode.step crypto) (OnlyAnswers crypto genuine peer)
      { node := .construct crypto ourPublicKey before } events)
    (htime : Run.AllSteps (AskingNode.step crypto) (InTime crypto genuine peer)
      { node := .construct crypto ourPublicKey before } events) :
    Run.AllSteps (AskingNode.step crypto) (NotPunished crypto peer)
      { node := .construct crypto ourPublicKey before } events := by
  have hstart : AnswersInv crypto genuine peer (.construct crypto ourPublicKey before) :=
    ⟨⟨fun hne => absurd rfl hne, fun entry he => absurd he (OrdMap.not_mem_empty entry)⟩,
      fun reply hreply => by cases hreply⟩
  have hinv := Run.AllSteps.with_invariant
    (I := fun s : AskingNode => AnswersInv crypto genuine peer s.node)
    (fun _ _ h hstep => h.step hstep) hstart hanswers
  exact (Run.AllSteps.and.2 ⟨hinv, htime⟩).mono fun _ _ h => h.1.1.notPunished h.1.2 h.2

end AskingNode

namespace Sample

/-- The begin of the cycle of the id `2`. -/
def cycle2 : BlockchainTime := 1547155560000

/-- An event whose questions, if it asks any, go to the peer. -/
def asking (peer : PeerId) (event : NodeEvent) : AskingEvent := ⟨event, fun _ => some peer⟩

/-- The fetching thread takes some steps. -/
def fetchSteps (count : Nat) : List AskingEvent :=
  List.replicate count (asking [2] (.fetch (.fetchBlocksThread cycle2 1)))

/-- Two peers are asked for the block `2`. One answers, and the node leaves `FetchBlockchain`. The
other answer comes after `count` changes of the state. -/
def lateAnswer (count : Nat) : List AskingEvent :=
  asking [2] .enterFetchBlockchain :: fetchSteps 2 ++
    [asking [2] (.fetch (.onCycle cycle2)),
      asking [2] (.fetch (.baselineBlockReceived [2] (Blockchain.emptyBaseline .sample) true))] ++
    fetchSteps 4 ++
    [asking [1] (.fetch (.onCycle cycle2)), asking [2] (.fetch (.onCycle (cycle2 + 2000))),
      asking [2] (.fetch (.collectionBlockReceived [2] mining true))] ++
    fetchSteps 3 ++ asking [2] (.fetch (.onExit (cycle2 + 3000))) :: fetchSteps 1 ++
    List.replicate count (asking [2] (.manager (.advance (cycle2 + 3000)))) ++
    [asking [2] (.manager (.collectionBlockReceived [1] mining true (cycle2 + 4000)))]

end Sample

/-- The answer comes during `Collect`, after a block has been introduced. -/
theorem late_answer_ignored :
    (Run.exec (AskingNode.step .sample) { node := .construct .sample Sample.keyC {} }
        (Sample.lateAnswer 2)).node.base.blockchain.getNewestBlockId = 3 ∧
      Run.AllSteps (AskingNode.step .sample) (AskingNode.NotPunished .sample [1])
        { node := .construct .sample Sample.keyC {} } (Sample.lateAnswer 2) :=
  ⟨by decide +kernel, AskingNode.notPunished_of_inTime .sample Sample.genuineBlock [1] Sample.keyC
    {} (Sample.lateAnswer 2) (by decide +kernel) (by decide +kernel)⟩

/-- The answer comes during `IntroduceBlock`, and the peer is reported for it. -/
theorem late_answer_reported :
    ¬ ∀ (crypto : CryptoHelper) (genuine : BlockUid → CollectionBlock) (peer : PeerId)
        (ourPublicKey : PublicKeyPEM) (before : Blockchain) (events : List AskingEvent),
      Run.AllSteps (AskingNode.step crypto) (AskingNode.OnlyAnswers crypto genuine peer)
        { node := .construct crypto ourPublicKey before } events →
      Run.AllSteps (AskingNode.step crypto) (AskingNode.NotPunished crypto peer)
        { node := .construct crypto ourPublicKey before } events := by
  intro h
  have hspared := h .sample Sample.genuineBlock [1] Sample.keyC {} (Sample.lateAnswer 1)
    (by decide +kernel)
  exact absurd hspared (by decide +kernel)

end SwabianCoin
