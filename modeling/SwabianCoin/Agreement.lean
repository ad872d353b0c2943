import SwabianCoin.Rounds

/-!
# All nodes add the same blocks

A message that reaches a node keeps the invariant as well (`Inv.deliver`): it has been heard
before, it is merged, or it is the own block, and what its sender knew is learned from it. So in
every state of every fair run

* `agreement` — of two nodes one has added what the other has added and perhaps more, and nodes
  with equally many blocks have the same chain;
* `nothing_lost` — every block added has the smallest of all sub-blocks that anybody had collected
  when the round began;
* `nobody_accused` — everything sent is valid for everybody who negotiates it, and nobody is
  reported for an invalid block.
-/

namespace SwabianCoin

open Machine

variable {ι : Type} {crypto : CryptoHelper} {genesis : Blockchain} {pool : Nat → CollectionBlock}

/-! ## Merging what is in the pool -/

theorem Blockchain.Affords.part {bc : Blockchain} {block part : CollectionBlock}
    (h : bc.Affords block) (htransactions : ∀ entry ∈ part.transactions, entry ∈ block.transactions)
    (hcreations : ∀ entry ∈ part.creations, entry ∈ block.creations) : bc.Affords part := by
  have hsubT : part.transactions.values.Sublist block.transactions.values :=
    (OrdMap.entries_sublist htransactions).map Prod.snd
  refine ⟨fun transaction hmem => ?_, lt_of_le_of_lt ?_ h.2⟩
  · obtain ⟨hsent, hbound⟩ := h.1 transaction (hsubT.mem hmem)
    exact ⟨(sentBy_le hsubT _).trans hsent, hbound⟩
  · exact Nat.add_le_add
      (Nat.mul_le_mul_left _ (OrdMap.entries_sublist hcreations).length_le)
      (sum_map_le_of_sublist hsubT _)

theorem BlockchainManager.mergesSoundly_of_pool {m : BlockchainManager}
    {block pool : CollectionBlock} (haffords : m.blockchain.Affords pool)
    (hT : ∀ entry ∈ m.newBlock.transactions, entry ∈ pool.transactions)
    (hT' : ∀ entry ∈ block.transactions, entry ∈ pool.transactions)
    (hC : ∀ entry ∈ m.newBlock.creations, entry ∈ pool.creations ∧
      entry.1 = entry.2.header.genericHeader.blockHash)
    (hC' : ∀ entry ∈ block.creations, entry ∈ pool.creations ∧
      entry.1 = entry.2.header.genericHeader.blockHash) : m.MergesSoundly block := by
  have hunionC : ∀ entry ∈ (m.unionWith block).creations, entry ∈ pool.creations ∧
      entry.1 = entry.2.header.genericHeader.blockHash := by
    intro entry he
    rcases OrdMap.mem_union.1 he with he | ⟨he, -⟩
    · exact hC entry he
    · exact hC' entry he
  refine ⟨fun e he f hf => OrdMap.eq_of_mem_of_fst_eq (hT e he) (hT' f hf),
    fun e he f hf => OrdMap.eq_of_mem_of_fst_eq (hC e he).1 (hC' f hf).1,
    creationsSorted_of_keys fun entry he => (hunionC entry he).2,
    Or.inl (haffords.part (fun entry he => ?_) fun entry he => (hunionC entry he).1)⟩
  rcases OrdMap.mem_union.1 he with he | ⟨he, -⟩
  · exact hT entry he
  · exact hT' entry he

theorem BlockchainManager.mergeBlock_countersEmpty {m : BlockchainManager}
    (hthreshold : m.cycleStateIntroduceBlock.threshold = 1)
    (hempty : m.cycleStateIntroduceBlock.CountersEmpty) (block : CollectionBlock) :
    (m.mergeBlock crypto block).1.cycleStateIntroduceBlock.CountersEmpty := by
  refine ⟨?_, ?_⟩
  · show (m.offerCreations block).counter = ∅
    rw [offerCreations, hthreshold]
    exact Ballot.counter_foldl_offer_one _ _ hempty.1
  · show (m.offerTransactions block).counter = ∅
    rw [offerTransactions, hthreshold]
    exact Ballot.counter_foldl_offer_one _ _ hempty.2

/-- A valid block whose claimed hash has no other verdict is judged valid, and the chain stays as
it is. -/
theorem BlockchainManager.judge_of_accepts {m : BlockchainManager} {block : CollectionBlock}
    (haccepts : m.blockchain.Accepts crypto block)
    (hverdicts : ∀ entry ∈ m.cycleStateIntroduceBlock.processedBlocks, entry.2 = true) :
    (m.judge crypto block).1 = true ∧ (m.judge crypto block).2.blockchain = m.blockchain := by
  simp only [judge]
  cases hfind : m.cycleStateIntroduceBlock.processedBlocks.find?
      block.header.genericHeader.blockHash with
  | none =>
    exact ⟨haccepts, Blockchain.validateBlock_snd_eq_self_iff.2 haccepts.leavesWallets⟩
  | some verdict =>
    exact ⟨hverdicts _ (OrdMap.find?_eq_some_iff.1 hfind), rfl⟩

namespace Network

/-! ## Messages -/

section Deliver

variable {s : Network ι} {i : ι} {message : Message ι}

theorem Inv.proposed_pool (h : s.Inv crypto genesis pool) (round : Nat) (K : Set ι) :
    (∀ entry ∈ s.proposed CollectionBlock.transactions round K,
      entry ∈ (pool round).transactions) ∧
    ∀ entry ∈ s.proposed CollectionBlock.creations round K,
      entry ∈ (pool round).creations ∧ entry.1 = entry.2.header.genericHeader.blockHash := by
  refine ⟨?_, ?_⟩
  · rintro entry ⟨i, -, block, hblock, hentry⟩
    exact ((h.node i).pooled round block hblock).1 entry hentry
  · rintro entry ⟨i, -, block, hblock, hentry⟩
    exact ((h.node i).pooled round block hblock).2 entry hentry

/-- A block of the current round is valid for everybody who negotiates it. -/
theorem Inv.message_of_round (h : s.Inv crypto genesis pool) (hmessage : message ∈ s.sent)
    (hround : message.round = s.round i) :
    (s.nodes i).blockchain.Accepts crypto message.block ∧
      s.AccountsFor (s.round i) message.knows
        (creationsLeft (s.nodes i).blockchain.getMiningState) ∅ message.block {} := by
  have hok := h.message message hmessage
  have hle := hok.round_le
  rw [hround] at hle
  have hsame : SameChain (s.chain crypto genesis message.sender (s.round i))
      (s.nodes i).blockchain := by
    rw [h.chain_eq hle (le_refl _)]
    exact (h.node i).chain
  have haccepted := hok.accepted
  have haccounts := hok.accounts
  rw [hround] at haccepted haccounts
  rw [hsame.getMiningState]
  exact ⟨hsame.accepts.2 haccepted, haccounts⟩

theorem Inv.receivesSoundly (h : s.Inv crypto genesis pool) (hmessage : message ∈ s.sent)
    (hstate : (s.nodes i).currentState = some .introduceBlock) :
    (s.nodes i).ReceivesSoundly crypto message.block := by
  intro hconsiders _
  obtain ⟨haccepts, haccounts⟩ :=
    h.message_of_round hmessage (h.round_eq hmessage hstate hconsiders.1)
  refine ⟨fun _ => haccepts, fun _ => ?_⟩
  obtain ⟨heard, hn⟩ := (h.node i).negotiating hstate
  have hrounds := (h.node i).rounds
  rw [if_pos hstate] at hrounds
  obtain ⟨hpoolT, hpoolC⟩ := h.proposed_pool (s.round i) Set.univ
  exact BlockchainManager.mergesSoundly_of_pool
    ((h.node i).chain.affords.2 ((h.node i).affords (s.round i) (by omega)))
    (fun entry he => hpoolT entry (hn.accounts.transactions.mem he))
    (fun entry he => hpoolT entry (haccounts.transactions.mem he))
    (fun entry he => hpoolC entry (hn.accounts.creations.mem he))
    (fun entry he => hpoolC entry (haccounts.creations.mem he))

/-- The part of `Negotiating` that a message can change. -/
structure Considered (s : Network ι) (i : ι) (message : Message ι) (K : Set ι)
    (heard : Set CollectionBlock) (m : BlockchainManager) : Prop where
  blockchain : m.blockchain = (s.nodes i).blockchain
  heard_sent : ∀ block ∈ heard, ∃ message ∈ s.sent, message.block = block ∧
    message.round = s.round i
  accounts : s.AccountsFor (s.round i) K (creationsLeft (s.nodes i).blockchain.getMiningState)
    heard m.newBlock m.cycleStateIntroduceBlock
  learns : (s.nodes i).TakesAtOnce message.block →
    message.block ∈ heard ∧ m.cycleStateIntroduceBlock.CountersEmpty
  processed : ∀ hash ∈ m.cycleStateIntroduceBlock.processedBlocks.keys,
    ∃ block ∈ heard, block.header.genericHeader.blockHash = hash
  verdicts : ∀ entry ∈ m.cycleStateIntroduceBlock.processedBlocks, entry.2 = true

/-- A message that is judged counts as heard, and is found valid. What it does to the sub-blocks and
the counters depends on the case. -/
theorem Inv.considered_of_judged (h : s.Inv crypto genesis pool) (peer : PeerId)
    (hmessage : message ∈ s.sent) (hround : message.round = s.round i)
    {heard : Set CollectionBlock} (hn : s.Negotiating i heard)
    (hc : (s.nodes i).Considers message.block)
    (hchain : ((s.nodes i).considerBlock crypto peer message.block).1.blockchain =
      (s.nodes i).blockchain)
    (haccounts : s.AccountsFor (s.round i) (s.knows i)
      (creationsLeft (s.nodes i).blockchain.getMiningState) (insert message.block heard)
      ((s.nodes i).considerBlock crypto peer message.block).1.newBlock
      ((s.nodes i).considerBlock crypto peer message.block).1.cycleStateIntroduceBlock)
    (hempty : (s.nodes i).TakesAtOnce message.block → ((s.nodes i).considerBlock crypto peer
      message.block).1.cycleStateIntroduceBlock.CountersEmpty) :
    s.Considered i message (s.knows i) (insert message.block heard)
      ((s.nodes i).considerBlock crypto peer message.block).1 := by
  have hprocessed := BlockchainManager.considerBlock_processedBlocks crypto hc peer
  rw [(BlockchainManager.judge_of_accepts (h.message_of_round hmessage hround).1 hn.verdicts).1]
    at hprocessed
  refine ⟨hchain, ?_, haccounts, fun htakes => ⟨Set.mem_insert .., hempty htakes⟩,
    fun hash hhash => ?_, fun entry hentry => ?_⟩
  · rintro block (rfl | hblock)
    · exact ⟨message, hmessage, rfl, hround⟩
    · exact hn.heard_sent block hblock
  · rw [hprocessed, OrdMap.mem_keys_insert] at hhash
    rcases hhash with rfl | hhash
    · exact ⟨message.block, Set.mem_insert .., rfl⟩
    · obtain ⟨block, hblock, heq⟩ := hn.processed hash hhash
      exact ⟨block, Set.mem_insert_of_mem _ hblock, heq⟩
  · rw [hprocessed] at hentry
    rcases OrdMap.mem_insert.1 hentry with rfl | ⟨-, hold⟩
    · rfl
    · exact hn.verdicts entry hold

theorem Inv.accountsFor_merged (h : s.Inv crypto genesis pool) (hmessage : message ∈ s.sent)
    (hround : message.round = s.round i) {heard : Set CollectionBlock}
    (hn : s.Negotiating i heard) :
    s.AccountsFor (s.round i) (s.knows i) (creationsLeft (s.nodes i).blockchain.getMiningState)
      (insert message.block heard)
      (((s.nodes i).judge crypto message.block).2.mergeBlock crypto message.block).1.newBlock
      (((s.nodes i).judge crypto message.block).2.mergeBlock crypto
        message.block).1.cycleStateIntroduceBlock := by
  obtain ⟨haccepts, haccounts⟩ := h.message_of_round hmessage hround
  have hchain := (BlockchainManager.judge_of_accepts haccepts hn.verdicts).2
  have hmerged := AccountsFor.mergeBlock crypto
    (m := ((s.nodes i).judge crypto message.block).2) (h.unambiguous (s.round i))
    (by rw [hchain]; exact ⟨hn.accounts.transactions, hn.accounts.creations⟩) haccounts
    fun block hblock => by
      obtain ⟨sender, hsender, rfl, hsame⟩ := hn.heard_sent block hblock
      exact ⟨_, _, _, (h.message_of_round hsender hsame).2⟩
  rw [hchain] at hmerged
  exact hmerged

/-- A block that is not judged has been heard before, since its hash has a verdict. -/
theorem Negotiating.mem_heard {heard : Set CollectionBlock} (hn : s.Negotiating i heard)
    (huid : message.block.header.blockUid = (s.nodes i).newBlock.header.blockUid)
    (hhashes : ∀ other ∈ s.sent.map Message.block,
      other.header.genericHeader.blockHash = message.block.header.genericHeader.blockHash →
        other = message.block)
    (hc : ¬ (s.nodes i).Considers message.block) : message.block ∈ heard := by
  have hseen : message.block.header.genericHeader.blockHash ∈
      (s.nodes i).cycleStateIntroduceBlock.processedBlocks.keys := by
    by_contra hunseen
    exact hc ⟨huid, fun hkey => absurd hkey hunseen⟩
  obtain ⟨block, hblock, hhash⟩ := hn.processed _ hseen
  obtain ⟨sender, hsender, rfl, -⟩ := hn.heard_sent block hblock
  rw [← hhashes _ (List.mem_map_of_mem hsender) hhash]
  exact hblock

/-- **A message is considered.** It has been heard before, it is merged, or it is the own block;
and it is never found invalid. -/
theorem Inv.considerBlock (h : s.Inv crypto genesis pool) (peer : PeerId)
    (hmessage : message ∈ s.sent)
    (hstate : (s.nodes i).currentState = some .introduceBlock)
    (hhashes : ∀ other ∈ (s.nodes i).newBlock :: s.sent.map Message.block,
      other.header.genericHeader.blockHash = message.block.header.genericHeader.blockHash →
        other = message.block)
    {heard : Set CollectionBlock} (hn : s.Negotiating i heard) :
    (∃ heard', s.Considered i message (s.knows i) heard'
      ((s.nodes i).considerBlock crypto peer message.block).1) ∧
      ∀ effect ∈ ((s.nodes i).considerBlock crypto peer message.block).2,
        ∀ other, effect ≠ .reportViolation other .invalidBlock := by
  by_cases hc : (s.nodes i).Considers message.block
  · have hround := h.round_eq hmessage hstate hc.1
    obtain ⟨htrue, hchain⟩ := BlockchainManager.judge_of_accepts
      (h.message_of_round hmessage hround).1 hn.verdicts
    have hjudged := h.considered_of_judged peer hmessage hround hn hc
    rcases BlockchainManager.considerBlock_cases crypto (s.nodes i) peer message.block with
      ⟨hnot, -⟩ | ⟨-, -, -, heq⟩ | ⟨-, -, hown, heq⟩ | ⟨-, hfalse, -⟩
    · exact absurd hc hnot
    · rw [heq] at hjudged ⊢
      refine ⟨⟨_, hjudged hchain (h.accountsFor_merged hmessage hround hn) fun htakes => ?_⟩,
        fun effect hmem other => ?_⟩
      · exact BlockchainManager.mergeBlock_countersEmpty
          (m := ((s.nodes i).judge crypto message.block).2) htakes.2.2.1 htakes.2.2.2 _
      · -- Merging reports votes only.
        rintro rfl
        rcases List.mem_append.1 hmem with hvote | hvote
        · obtain ⟨vote, -, hvote⟩ := List.mem_map.1 hvote
          cases hvote
        · obtain ⟨vote, -, hvote⟩ := List.mem_map.1 hvote
          cases hvote
    · have hself : (s.nodes i).newBlock = message.block :=
        hhashes _ (List.mem_cons_self ..) hown.symm
      have haccounts := hn.accounts.hearOwn
      rw [hself] at haccounts
      rw [heq] at hjudged ⊢
      refine ⟨⟨_, hjudged hchain ?_ fun htakes => htakes.2.2.2⟩,
        fun effect hmem => absurd hmem List.not_mem_nil⟩
      show s.AccountsFor _ _ _ _ (s.nodes i).newBlock _
      rw [hself]
      exact ⟨haccounts.transactions, haccounts.creations⟩
    · rw [htrue] at hfalse
      exact absurd hfalse (by simp)
  · have hothers := fun other hmem => hhashes other (List.mem_cons_of_mem _ hmem)
    rw [BlockchainManager.considerBlock_of_not_considers crypto hc peer]
    refine ⟨⟨heard, rfl, hn.heard_sent, hn.accounts, fun htakes => ?_, hn.processed, hn.verdicts⟩,
      fun effect hmem => absurd hmem List.not_mem_nil⟩
    exact ⟨hn.mem_heard htakes.2.1 hothers hc, htakes.2.2.2⟩

variable [DecidableEq ι] {peerId : ι → PeerId}

@[simp] theorem deliver_nodes_self (now : BlockchainTime) :
    (s.deliver crypto peerId i message now).nodes i = (s.nodes i).step crypto
      (.collectionBlockReceived (peerId message.sender) message.block false now) :=
  Function.update_self ..

@[simp] theorem deliver_knows_self (now : BlockchainTime) :
    (s.deliver crypto peerId i message now).knows i =
      if (s.nodes i).TakesAtOnce message.block then s.knows i ∪ message.knows else s.knows i :=
  Function.update_self ..

theorem deliver_grows (now : BlockchainTime) :
    Grows s (s.deliver crypto peerId i message now) :=
  ⟨fun _ => id, fun _ => List.prefix_rfl, fun _ => List.prefix_rfl⟩

/-- Whom the node knows of has started the round: the sender knew only of such nodes. -/
theorem Inv.known_deliver (h : s.Inv crypto genesis pool) (peerId : ι → PeerId)
    (hmessage : message ∈ s.sent) (hstate : (s.nodes i).currentState = some .introduceBlock)
    {heard : Set CollectionBlock} (hn : s.Negotiating i heard) (now : BlockchainTime) :
    ∀ k ∈ (s.deliver crypto peerId i message now).knows i, s.round i < (s.own k).length := by
  rw [deliver_knows_self]
  intro k hk
  split_ifs at hk with htakes
  · rcases Finset.mem_union.1 hk with hk | hk
    · exact hn.known k hk
    · have hknown := (h.message message hmessage).known k hk
      rw [h.round_eq hmessage hstate htakes.2.1] at hknown
      exact hknown
  · exact hn.known k hk

theorem Inv.negotiating_deliver (h : s.Inv crypto genesis pool) (peerId : ι → PeerId)
    (hmessage : message ∈ s.sent)
    (hhashes : ∀ other ∈ (s.nodes i).newBlock :: s.sent.map Message.block,
      other.header.genericHeader.blockHash = message.block.header.genericHeader.blockHash →
        other = message.block)
    (hstate : (s.nodes i).currentState = some .introduceBlock) (now : BlockchainTime) :
    ((s.deliver crypto peerId i message now).nodes i).blockchain = (s.nodes i).blockchain ∧
      ∃ heard, (s.deliver crypto peerId i message now).Negotiating i heard := by
  obtain ⟨heard, hn⟩ := (h.node i).negotiating hstate
  obtain ⟨⟨heard', hc⟩, -⟩ := h.considerBlock (peerId message.sender) hmessage hstate hhashes hn
  have hs : SameNegotiation
      ((s.nodes i).considerBlock crypto (peerId message.sender) message.block).1
      ((s.nodes i).step crypto
        (.collectionBlockReceived (peerId message.sender) message.block false now)) :=
    BlockchainManager.step_received_same hstate (peerId message.sender) message.block now
  have hchain := hs.blockchain.trans hc.blockchain
  have hknown := h.known_deliver peerId hmessage hstate hn now
  have haccounts : s.AccountsFor (s.round i) ((s.deliver crypto peerId i message now).knows i)
      (creationsLeft (s.nodes i).blockchain.getMiningState) heard'
      ((s.nodes i).considerBlock crypto (peerId message.sender) message.block).1.newBlock
      ((s.nodes i).considerBlock crypto (peerId message.sender)
        message.block).1.cycleStateIntroduceBlock := by
    rw [deliver_knows_self]
    split_ifs with htakes
    · -- The block has been heard, so what its sender knew is accounted for.
      obtain ⟨hheard, hempty⟩ := hc.learns htakes
      have hother := (h.message_of_round hmessage (h.round_eq hmessage hstate htakes.2.1)).2
      rw [Finset.coe_union]
      exact hc.accounts.absorb (h.unambiguous _) hother hheard hempty
    · exact hc.accounts
  refine ⟨by rw [deliver_nodes_self]; exact hchain, heard', hc.heard_sent, hknown, ?_, ?_, ?_⟩
  · rw [deliver_nodes_self, hchain, hs.newBlock, hs.state]
    exact haccounts.grows (deliver_grows now) hknown
  · rw [deliver_nodes_self, hs.state]
    exact hc.processed
  · rw [deliver_nodes_self, hs.state]
    exact hc.verdicts

/-- **A message arrives.** -/
theorem Inv.deliver (h : s.Inv crypto genesis pool) (hmessage : message ∈ s.sent)
    (hhashes : ∀ other ∈ (s.nodes i).newBlock :: s.sent.map Message.block,
      other.header.genericHeader.blockHash = message.block.header.genericHeader.blockHash →
        other = message.block) (now : BlockchainTime) :
    (s.deliver crypto peerId i message now).Inv crypto genesis pool := by
  have hok := h.node i
  have hgrows : Grows s (s.deliver crypto peerId i message now) := deliver_grows now
  have hnode : NodeInv crypto ((s.deliver crypto peerId i message now).nodes i) := by
    rw [deliver_nodes_self]
    exact hok.node.received (peerId message.sender) message.block false now
      fun _ hstate => h.receivesSoundly hmessage hstate
  refine h.of_node (i := i) hgrows (fun j hj => ?_) ?_ fun other hother => Or.inl hother
  · simp [Network.deliver, Function.update_of_ne hj]
  · by_cases hstate : (s.nodes i).currentState = some .introduceBlock
    · obtain ⟨hchain, hn⟩ := h.negotiating_deliver peerId hmessage hhashes hstate now
      have hstays : (ManagerEvent.collectionBlockReceived (peerId message.sender) message.block
          false now).StaysInState := trivial
      have hstate' := BlockchainManager.step_currentState crypto (s.nodes i) hstays
      have hrounds := hok.rounds
      rw [if_pos hstate] at hrounds
      refine ⟨hnode, by rw [hchain]; exact hok.chain, fun round block => hok.decided_grows hgrows,
        ?_, hok.pooled, hok.affords, fun _ => hn⟩
      rw [deliver_nodes_self, hstate', if_pos hstate]
      exact hrounds
    · have hs : SameNegotiation (s.nodes i)
          ((s.nodes i).step crypto
            (.collectionBlockReceived (peerId message.sender) message.block false now)) :=
        BlockchainManager.step_outside_same hstate (peerId message.sender) message.block false now
      have hnot : ¬ (s.nodes i).TakesAtOnce message.block := fun htakes => hstate htakes.1
      refine hok.stays hgrows rfl rfl (by rw [deliver_knows_self, if_neg hnot]) hnode ?_ ?_
        fun hnegotiates => absurd hnegotiates hstate
      · rw [deliver_nodes_self]
        exact hs.blockchain
      · rw [deliver_nodes_self, hs.currentState]

/-! ## Runs -/

/-- **One event.** -/
theorem Inv.step (h : s.Inv crypto genesis pool) {event : NetworkEvent ι}
    (hfair : s.Fair pool event) : (s.step crypto peerId event).Inv crypto genesis pool := by
  cases event with
  | act i event =>
    cases event with
    | advance now =>
      have hmay : s.MayAdvance pool i (s.nodes i).currentState := hfair
      cases hstate : (s.nodes i).currentState with
      | none =>
        rw [hstate] at hmay
        exact h.act_open now (Or.inl hstate) hmay
      | some state =>
        rw [hstate] at hmay
        cases state with
        | collect => exact h.act_open now (Or.inr hstate) hmay
        | introduceBlock => exact h.act_close now hstate hmay
        | introduceBaseline =>
          refine h.act_stays (.advance_introduceBaseline crypto now hstate) fun hnext => ?_
          rw [BlockchainManager.nextState, hstate] at hnext
          cases hnext
    | onCycle now creationSignature transactionSignature =>
      exact h.act_stays (.onCycle crypto _ now creationSignature transactionSignature) trivial
    | collectionBlockReceived peer block reply now =>
      obtain rfl : reply = true := hfair
      exact h.act_stays (.reply crypto _ peer block now) fun hfalse => by cases hfalse
    | foundHash data =>
      exact h.act_stays (.of_sameNegotiation ⟨rfl, rfl, rfl, rfl⟩
        fun effect hmem => absurd hmem List.not_mem_nil) trivial
    | triggerTransaction receiver fraction =>
      exact h.act_stays (.of_sameNegotiation ⟨rfl, rfl, rfl, rfl⟩
        fun effect hmem => absurd hmem List.not_mem_nil) trivial
  | deliver i number now =>
    simp only [Network.step]
    split
    · exact h
    · exact h.deliver (List.mem_of_getElem? ‹_›) (hfair _ ‹_›) now

end Deliver

/-- All nodes start with the same chain and have not collected anything yet. -/
structure Starts (crypto : CryptoHelper) (genesis : Blockchain) (nodes : ι → BlockchainManager) :
    Prop where
  tip : TipOk genesis
  tips : ∀ i, TipOk (nodes i).blockchain
  chain : ∀ i, SameChain genesis (nodes i).blockchain
  state : ∀ i, (nodes i).currentState = none
  newBlock : ∀ i, (nodes i).newBlock = {}

theorem Starts.inv {nodes : ι → BlockchainManager} (h : Starts crypto genesis nodes) :
    ({ nodes } : Network ι).Inv crypto genesis pool where
  tip := h.tip
  node i := by
    have hnone : ∀ {round : Nat} {block : CollectionBlock},
        ([] : List CollectionBlock)[round]? ≠ some block := by simp
    refine ⟨⟨h.tips i, fun _ => ?_, fun hstate => ?_⟩, h.chain i,
      fun round block hblock => absurd hblock hnone, ?_,
      fun round block hblock => absurd hblock hnone,
      fun round hlt => absurd hlt (Nat.not_lt_zero _), fun hstate => ?_⟩
    · show Collected crypto (nodes i).blockchain (nodes i).newBlock
      rw [h.newBlock i]
      exact Collected.empty crypto _
    · exact absurd ((h.state i).symm.trans hstate) (by simp)
    · simp [round, h.state i]
    · exact absurd ((h.state i).symm.trans hstate) (by simp)
  message message hmessage := absurd hmessage List.not_mem_nil

variable [DecidableEq ι] {peerId : ι → PeerId}

theorem Starts.inv_run {nodes : ι → BlockchainManager} (h : Starts crypto genesis nodes)
    {events : List (NetworkEvent ι)}
    (hfair : Run.AllSteps (step crypto peerId) (Fair pool) ({ nodes } : Network ι) events) :
    Run.AllStates (step crypto peerId) (Inv crypto genesis pool) { nodes } events :=
  Run.AllStates.of_steps (fun _ _ hinv hevent => hinv.step hevent) h.inv hfair

end Network

/-! ## Two nodes -/

namespace Sample

/-- One node has a coin, the other one has none. -/
def pair : Fin 2 → BlockchainManager
  | 0 => owner
  | 1 => { ourPublicKey := keyB, blockchain := minedChain }

def pairIds : Fin 2 → PeerId
  | 0 => [1]
  | 1 => [2]

/-- The block of the first round. -/
def emptyRound : Block := .collection (block (.collection mining) [] [])

/-- In the second round there are a payment and a coin. -/
def pairPool (round : Nat) : CollectionBlock :=
  if round = 1 then
    block emptyRound [payment emptyRound keyA keyB 300000] [coin emptyRound keyB [1]]
  else {}

/-- Two rounds. In the second one each node has something to propose. -/
def twoRounds : List (NetworkEvent (Fin 2)) :=
  [.act 0 (.advance 0), .act 1 (.advance 0), .deliver 0 1 0, .deliver 1 0 0,
    .act 0 (.advance 0), .act 0 (.triggerTransaction keyB 300000),
    .act 0 (.onCycle 0 [] keyA.shortString), .act 1 (.advance 0),
    .act 1 (.foundHash (dataValueBeginning {} keyB ++ [1])),
    .act 1 (.onCycle 0 keyB.shortString []), .act 1 (.advance 0), .act 0 (.advance 0),
    .deliver 1 1 0, .deliver 0 2 0, .deliver 1 3 0, .act 1 (.advance 0), .act 0 (.advance 0)]

theorem sameChain_minedChain : SameChain minedChain minedChain :=
  (SameChain.of_root ({} : Blockchain).cache ({} : Blockchain).cache
    (Blockchain.emptyBaseline .sample) 1).addBlock mining

theorem starts_pair : Network.Starts .sample minedChain pair where
  tip := tipOk_minedChain
  tips
    | 0 => tipOk_minedChain
    | 1 => tipOk_minedChain
  chain
    | 0 => sameChain_minedChain
    | 1 => sameChain_minedChain
  state := by decide
  newBlock := by decide

theorem fair_twoRounds : Run.AllSteps (Network.step .sample pairIds) (Network.Fair pairPool)
    { nodes := pair } twoRounds := by
  decide +kernel

end Sample

/-! ## Results -/

namespace Network

variable [DecidableEq ι]

/-- **Agreement.** In every state of a fair run, of two nodes one has added what the other has
added and perhaps more, and nodes that have added equally many blocks have the same chain. -/
theorem agreement (crypto : CryptoHelper) (genesis : Blockchain) (pool : Nat → CollectionBlock)
    (peerId : ι → PeerId) (nodes : ι → BlockchainManager) (events : List (NetworkEvent ι))
    (hstarts : Starts crypto genesis nodes)
    (hfair : Run.AllSteps (step crypto peerId) (Fair pool) { nodes } events) :
    Run.AllStates (step crypto peerId)
      (fun s => ∀ i j, (s.added i <+: s.added j ∨ s.added j <+: s.added i) ∧
        (s.round i = s.round j → SameChain (s.nodes i).blockchain (s.nodes j).blockchain))
      { nodes } events := by
  refine (hstarts.inv_run hfair).mono fun s h i j => ⟨?_, fun hround => ?_⟩
  · rcases Nat.le_total (s.round i) (s.round j) with hle | hle
    · have htake := h.take_eq (le_refl (s.round i)) hle
      rw [round, List.take_length] at htake
      exact Or.inl (htake ▸ List.take_prefix _ _)
    · have htake := h.take_eq hle (le_refl (s.round j))
      rw [round, List.take_length] at htake
      exact Or.inr (htake ▸ List.take_prefix _ _)
  · have hj := (h.node j).chain
    rw [← hround, ← h.chain_eq (le_refl (s.round i)) hround.le] at hj
    exact (h.node i).chain.symm.trans hj

/-- Two nodes, one of which has left the first round long before the other. -/
theorem twoRounds_agreement :
    ((Run.exec (step .sample Sample.pairIds) { nodes := Sample.pair }
        Sample.twoRounds).nodes 1).blockchain.getBalance Sample.keyB = 1300000 ∧
      Run.AllStates (step .sample Sample.pairIds)
        (fun s => ∀ i j, (s.added i <+: s.added j ∨ s.added j <+: s.added i) ∧
          (s.round i = s.round j → SameChain (s.nodes i).blockchain (s.nodes j).blockchain))
        { nodes := Sample.pair } Sample.twoRounds :=
  ⟨by decide +kernel, agreement .sample Sample.minedChain Sample.pairPool Sample.pairIds
    Sample.pair Sample.twoRounds Sample.starts_pair Sample.fair_twoRounds⟩

/-- **Nothing is lost.** Every block a node has added is valid on the chain before it, and has the
smallest of all sub-blocks that anybody had collected when the round began. -/
theorem nothing_lost (crypto : CryptoHelper) (genesis : Blockchain) (pool : Nat → CollectionBlock)
    (peerId : ι → PeerId) (nodes : ι → BlockchainManager) (events : List (NetworkEvent ι))
    (hstarts : Starts crypto genesis nodes)
    (hfair : Run.AllSteps (step crypto peerId) (Fair pool) { nodes } events) :
    Run.AllStates (step crypto peerId)
      (fun s => ∀ i round block, (s.added i)[round]? = some block →
        s.Decided crypto (s.chain crypto genesis i round) round block)
      { nodes } events :=
  (hstarts.inv_run hfair).mono fun _ h i => (h.node i).decided

/-- The payment of one node and the coin of the other one are in the second block of both. -/
theorem twoRounds_nothing_lost :
    (((Run.exec (step .sample Sample.pairIds) { nodes := Sample.pair }
        Sample.twoRounds).added 0).map fun block =>
          (block.transactions.size, block.creations.size)) = [(0, 0), (1, 1)] ∧
      Run.AllStates (step .sample Sample.pairIds)
        (fun s => ∀ i round block, (s.added i)[round]? = some block →
          s.Decided .sample (s.chain .sample Sample.minedChain i round) round block)
        { nodes := Sample.pair } Sample.twoRounds :=
  ⟨by decide +kernel, nothing_lost .sample Sample.minedChain Sample.pairPool Sample.pairIds
    Sample.pair Sample.twoRounds Sample.starts_pair Sample.fair_twoRounds⟩

end Network

/-! ## Accusations -/

/-- The effect reports somebody for an invalid block. -/
def Effect.AccusesOfInvalidBlock (effect : Effect) : Prop :=
  ∃ peer, effect = .reportViolation peer .invalidBlock

theorem BlockchainManager.effects_outside {m : BlockchainManager}
    (h : m.currentState ≠ some .introduceBlock) (peer : PeerId) (block : CollectionBlock)
    (reply : Bool) (now : BlockchainTime) :
    ∀ effect ∈ m.effects crypto (.collectionBlockReceived peer block reply now),
      effect = .reportViolation peer .tooFast ∨ effect = .banPeer peer := by
  intro effect hmem
  simp only [effects, act, collectionBlockReceivedCallback, List.nil_append] at hmem
  unfold monitorMessage at hmem
  dsimp only at hmem
  split_ifs at hmem
  · exact absurd hmem List.not_mem_nil
  · exact mem_reportViolation hmem
  · exact absurd hmem List.not_mem_nil

theorem BlockchainManager.not_accuses {m : BlockchainManager} {event : ManagerEvent}
    (hnone : event.message = none) :
    ∀ effect ∈ m.effects crypto event, ¬ effect.AccusesOfInvalidBlock := by
  rintro effect hmem ⟨peer, rfl⟩
  cases event with
  | advance now =>
    have hentered : ∀ (m : BlockchainManager) (state : CycleState),
        .reportViolation peer .invalidBlock ∉ (m.enterState crypto state now).2 := by
      intro m state
      cases state <;> simp [enterState, enterIntroduceBlock]
    have hexited : .reportViolation peer .invalidBlock ∉ (m.exitState crypto).2 := by
      unfold exitState
      split <;> simp [exitIntroduceBlock]
    unfold effects act setState at hmem
    dsimp only at hmem
    split_ifs at hmem
    · exact absurd hmem List.not_mem_nil
    · exact (List.mem_append.1 hmem).elim hexited (hentered _ _)
  | onCycle now creationSignature transactionSignature =>
    unfold effects act BlockchainManager.onCycle cycleIntroduceBlock at hmem
    dsimp only at hmem
    split at hmem
    · exact absurd hmem List.not_mem_nil
    · split_ifs at hmem
      · exact absurd (List.mem_singleton.1 hmem) (by simp)
      · exact absurd hmem List.not_mem_nil
    · exact absurd hmem List.not_mem_nil
  | collectionBlockReceived sender block reply now =>
    cases reply with
    | false => cases hnone
    | true =>
      by_cases hstate : m.currentState = some .introduceBlock
      · rcases effects_reply crypto hstate sender block now _ hmem with heq | heq <;> cases heq
      · rcases effects_outside hstate sender block true now _ hmem with heq | heq <;> cases heq
  | foundHash data => exact absurd hmem List.not_mem_nil
  | triggerTransaction receiver fraction => exact absurd hmem List.not_mem_nil

namespace Network

theorem Inv.not_accuses {peerId : ι → PeerId} {s : Network ι} (h : s.Inv crypto genesis pool)
    {event : NetworkEvent ι} (hfair : s.Fair pool event) :
    ∀ effect ∈ s.effects crypto peerId event, ¬ effect.AccusesOfInvalidBlock := by
  intro effect hmem
  cases event with
  | act i event =>
    refine BlockchainManager.not_accuses ?_ effect hmem
    cases event with
    | collectionBlockReceived peer block reply now =>
      obtain rfl : reply = true := hfair
      rfl
    | _ => rfl
  | deliver i number now =>
    simp only [effects] at hmem
    split at hmem
    · exact absurd hmem List.not_mem_nil
    · rename_i message hmessage
      rintro ⟨peer, rfl⟩
      by_cases hstate : (s.nodes i).currentState = some .introduceBlock
      · obtain ⟨heard, hn⟩ := (h.node i).negotiating hstate
        obtain ⟨monitored, heffects, hmonitored⟩ := BlockchainManager.effects_received crypto hstate
          (peerId message.sender) message.block now
        rw [heffects] at hmem
        rcases List.mem_append.1 hmem with hmem | hmem
        · exact (h.considerBlock _ (List.mem_of_getElem? hmessage) hstate (hfair message hmessage)
            hn).2 _ hmem peer rfl
        · rcases hmonitored _ hmem with heq | heq <;> cases heq
      · rcases BlockchainManager.effects_outside hstate (peerId message.sender) message.block
          false now _ hmem with heq | heq <;> cases heq

variable [DecidableEq ι]

/-- **Nobody is accused.** At every event of a fair run, every block that anybody has sent and that
has the id a node is negotiating is valid for this node, and the event does not report anybody for
an invalid block. -/
theorem nobody_accused (crypto : CryptoHelper) (genesis : Blockchain) (pool : Nat → CollectionBlock)
    (peerId : ι → PeerId) (nodes : ι → BlockchainManager) (events : List (NetworkEvent ι))
    (hstarts : Starts crypto genesis nodes)
    (hfair : Run.AllSteps (step crypto peerId) (Fair pool) { nodes } events) :
    Run.AllSteps (step crypto peerId)
      (fun s event => (∀ message ∈ s.sent, ∀ i,
          (s.nodes i).currentState = some .introduceBlock →
          message.block.header.blockUid = (s.nodes i).newBlock.header.blockUid →
          (s.nodes i).blockchain.Accepts crypto message.block) ∧
        ∀ effect ∈ s.effects crypto peerId event, ¬ effect.AccusesOfInvalidBlock)
      { nodes } events := by
  have hinv : Run.AllSteps (step crypto peerId)
      (fun s event => s.Inv crypto genesis pool ∧ s.Fair pool event) { nodes } events :=
    Run.AllSteps.with_invariant (fun _ _ h hevent => h.step hevent) hstarts.inv hfair
  refine hinv.mono fun s event ⟨h, hevent⟩ =>
    ⟨fun message hmessage i hstate huid => ?_, h.not_accuses hevent⟩
  exact (h.message_of_round hmessage (h.round_eq hmessage hstate huid)).1

/-- Four messages, all of them valid where they matter. -/
theorem twoRounds_nobody_accused :
    (Run.exec (step .sample Sample.pairIds) { nodes := Sample.pair }
        Sample.twoRounds).sent.length = 4 ∧
      Run.AllSteps (step .sample Sample.pairIds)
        (fun s event => (∀ message ∈ s.sent, ∀ i,
            (s.nodes i).currentState = some .introduceBlock →
            message.block.header.blockUid = (s.nodes i).newBlock.header.blockUid →
            (s.nodes i).blockchain.Accepts .sample message.block) ∧
          ∀ effect ∈ s.effects .sample Sample.pairIds event, ¬ effect.AccusesOfInvalidBlock)
        { nodes := Sample.pair } Sample.twoRounds :=
  ⟨by decide +kernel, nobody_accused .sample Sample.minedChain Sample.pairPool Sample.pairIds
    Sample.pair Sample.twoRounds Sample.starts_pair Sample.fair_twoRounds⟩

end Network

end SwabianCoin
