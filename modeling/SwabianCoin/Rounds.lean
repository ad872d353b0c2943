import SwabianCoin.Consensus

/-!
# One round at a node

What a node does on its own keeps the invariant: it goes on inside its round (`Inv.act_stays`), it
starts a negotiation with what it has collected (`Inv.act_open`), or it ends one after it has heard
from everybody (`Inv.act_close`).
-/

namespace SwabianCoin

open Machine

variable {ι : Type} {crypto : CryptoHelper} {genesis : Blockchain} {pool : Nat → CollectionBlock}

/-! ## Events inside a round -/

theorem Effect.of_introduced_eq_none {effect : Effect} (h : effect.introduced = none) :
    effect.added = none ∧ effect.propagated = none := by
  cases effect with
  | propagateBlock block => exact absurd h (by simp [Effect.introduced])
  | addBlock block => exact absurd h (by simp [Effect.introduced])
  | _ => exact ⟨rfl, rfl⟩

/-- The event changes nothing that matters to the negotiation of the round, and the only block it
may send is the own one. -/
structure BlockchainManager.StaysInRound (crypto : CryptoHelper) (m : BlockchainManager)
    (event : ManagerEvent) : Prop where
  blockchain : (m.step crypto event).blockchain = m.blockchain
  state : (m.step crypto event).currentState = some .introduceBlock ↔
    m.currentState = some .introduceBlock
  same : m.currentState = some .introduceBlock →
    (m.step crypto event).newBlock = m.newBlock ∧
    (m.step crypto event).cycleStateIntroduceBlock.processedBlocks =
      m.cycleStateIntroduceBlock.processedBlocks ∧
    (m.step crypto event).cycleStateIntroduceBlock.transactionSubBlockCounter =
      m.cycleStateIntroduceBlock.transactionSubBlockCounter ∧
    (m.step crypto event).cycleStateIntroduceBlock.creationSubBlockCounter =
      m.cycleStateIntroduceBlock.creationSubBlockCounter
  added : ∀ effect ∈ m.effects crypto event, effect.added = none
  propagated : ∀ effect ∈ m.effects crypto event, ∀ block ∈ effect.propagated,
    m.currentState = some .introduceBlock ∧ block = m.newBlock

namespace BlockchainManager.StaysInRound

variable {m : BlockchainManager} {event : ManagerEvent}

theorem of_sameNegotiation (hs : SameNegotiation m (m.step crypto event))
    (heffects : ∀ effect ∈ m.effects crypto event, effect.introduced = none) :
    m.StaysInRound crypto event := by
  refine ⟨hs.blockchain, by rw [hs.currentState], fun _ => ?_, fun effect hmem => ?_,
    fun effect hmem block hblock => ?_⟩
  · rw [hs.newBlock, hs.state]
    exact ⟨rfl, rfl, rfl, rfl⟩
  · exact (Effect.of_introduced_eq_none (heffects effect hmem)).1
  · rw [(Effect.of_introduced_eq_none (heffects effect hmem)).2] at hblock
    exact absurd hblock (by simp)

theorem onCycle (crypto : CryptoHelper) (m : BlockchainManager) (now : BlockchainTime)
    (creationSignature transactionSignature : Signature) :
    m.StaysInRound crypto (.onCycle now creationSignature transactionSignature) := by
  by_cases hstate : m.currentState = some .introduceBlock
  · -- The own block may be sent once more.
    obtain ⟨hprocessed, htransactions, hcreations, hnew, hchain⟩ :=
      m.cycleIntroduceBlock_records now
    have hact : m.act crypto (.onCycle now creationSignature transactionSignature) =
        m.cycleIntroduceBlock now := by
      simp only [act, BlockchainManager.onCycle]
      rw [hstate]
    have hcurrent : (m.cycleIntroduceBlock now).1.currentState = m.currentState := by
      simp only [cycleIntroduceBlock]
      split_ifs <;> rfl
    have heffects : ∀ effect ∈ (m.cycleIntroduceBlock now).2,
        effect = .propagateBlock m.newBlock := by
      intro effect hmem
      simp only [cycleIntroduceBlock] at hmem
      split_ifs at hmem
      · exact List.mem_singleton.1 hmem
      · exact absurd hmem List.not_mem_nil
    refine ⟨?_, ?_, fun _ => ?_, fun effect hmem => ?_, fun effect hmem block hblock => ?_⟩
    · rw [step, hact, hchain]
    · rw [step, hact, hcurrent]
    · rw [step, hact]
      exact ⟨hnew, hprocessed, htransactions, hcreations⟩
    · rw [effects, hact] at hmem
      rw [heffects effect hmem]
      rfl
    · rw [effects, hact] at hmem
      rw [heffects effect hmem] at hblock
      cases hblock
      exact ⟨hstate, rfl⟩
  · by_cases hcollect : m.currentState = some .collect
    · have hact : m.act crypto (.onCycle now creationSignature transactionSignature) =
          ((m.collectCreation crypto creationSignature).collectTransaction crypto
            transactionSignature, []) := by
        simp only [act, BlockchainManager.onCycle]
        rw [hcollect]
      obtain ⟨hchain, -, hcurrent⟩ := collectCreation_same crypto m creationSignature
      obtain ⟨hchain', -, hcurrent'⟩ := collectTransaction_same crypto
        (m.collectCreation crypto creationSignature) transactionSignature
      refine ⟨?_, ?_, fun h => absurd h hstate, fun effect hmem => ?_, fun effect hmem => ?_⟩
      · rw [step, hact, hchain', hchain]
      · rw [step, hact, hcurrent', hcurrent]
      · rw [effects, hact] at hmem
        exact absurd hmem List.not_mem_nil
      · rw [effects, hact] at hmem
        exact absurd hmem List.not_mem_nil
    · have hact : m.act crypto (.onCycle now creationSignature transactionSignature) = (m, []) := by
        simp only [act, BlockchainManager.onCycle]
      refine of_sameNegotiation ?_ fun effect hmem => ?_
      · rw [step, hact]
        exact ⟨rfl, rfl, rfl, rfl⟩
      · rw [effects, hact] at hmem
        exact absurd hmem List.not_mem_nil

theorem reply (crypto : CryptoHelper) (m : BlockchainManager) (peer : PeerId)
    (block : CollectionBlock) (now : BlockchainTime) :
    m.StaysInRound crypto (.collectionBlockReceived peer block true now) := by
  refine of_sameNegotiation ?_ fun effect hmem =>
    m.introduced_received crypto peer block true now effect hmem
  by_cases hstate : m.currentState = some .introduceBlock
  · exact step_reply_same hstate peer block now
  · exact step_outside_same hstate peer block true now

/-- A baseline has been established, and the node goes on collecting. -/
theorem advance_introduceBaseline (crypto : CryptoHelper) (now : BlockchainTime)
    (h : m.currentState = some .introduceBaseline) : m.StaysInRound crypto (.advance now) := by
  have hact := m.act_advance_introduceBaseline crypto now h
  refine ⟨?_, ?_, ?_, fun effect hmem => ?_, fun effect hmem => ?_⟩
  · rw [step, hact]
    rfl
  · rw [step, hact, h]
    simp
  · rw [h]
    simp
  · rw [effects, hact] at hmem
    exact absurd hmem List.not_mem_nil
  · rw [effects, hact] at hmem
    exact absurd hmem List.not_mem_nil

end BlockchainManager.StaysInRound

/-- Leaving a negotiation: the own block is added, and a baseline established if it is time. -/
theorem BlockchainManager.act_advance_close {m : BlockchainManager}
    (hstate : m.currentState = some .introduceBlock) (now : BlockchainTime)
    (hfilled : refillHash crypto m.newBlock = m.newBlock) :
    (m.act crypto (.advance now)).1.currentState ≠ some .introduceBlock ∧
      (m.act crypto (.advance now)).1.blockchain = m.blockchain.extend crypto m.newBlock ∧
      (m.act crypto (.advance now)).2 = [.addBlock m.newBlock] := by
  obtain ⟨-, hact⟩ := m.act_advance_introduceBlock crypto now hstate
  have hexit := m.exitIntroduceBlock_blockchain crypto
  rw [hfilled] at hexit
  rw [hact, hfilled]
  unfold Blockchain.extend BlockchainManager.nextState
  rw [hstate]
  split_ifs
  · exact ⟨by simp, by rw [← hexit]; rfl, rfl⟩
  · exact ⟨by simp, hexit, rfl⟩

namespace Network

/-! ## Events at a node -/

section Act

variable [DecidableEq ι] {s : Network ι} {i : ι} {event : ManagerEvent}

theorem act_grows (s : Network ι) (i : ι) (event : ManagerEvent) :
    Grows s (s.act crypto i event) where
  sent message hmessage := List.mem_append_left _ hmessage
  added j := by
    by_cases hj : j = i
    · subst hj
      simp [act]
    · simp [act, Function.update_of_ne hj]
  own j := by
    by_cases hj : j = i
    · subst hj
      simp [act]
    · simp [act, Function.update_of_ne hj]

theorem act_others (crypto : CryptoHelper) (s : Network ι) (i : ι) (event : ManagerEvent) (j : ι)
    (hj : j ≠ i) :
    (s.act crypto i event).nodes j = s.nodes j ∧ (s.act crypto i event).added j = s.added j ∧
      (s.act crypto i event).own j = s.own j ∧ (s.act crypto i event).knows j = s.knows j := by
  simp [act, Function.update_of_ne hj]

theorem act_nodes (s : Network ι) (i : ι) (event : ManagerEvent) :
    (s.act crypto i event).nodes i = (s.nodes i).step crypto event := by
  simp [act, BlockchainManager.step]

/-- An event that neither starts a negotiation nor adds a block leaves the records of the node as
they are. -/
theorem act_records (hopens : ¬ ((s.nodes i).currentState ≠ some .introduceBlock ∧
      ((s.nodes i).step crypto event).currentState = some .introduceBlock))
    (hadded : ∀ effect ∈ (s.nodes i).effects crypto event, effect.added = none) :
    (s.act crypto i event).added i = s.added i ∧ (s.act crypto i event).own i = s.own i ∧
      (s.act crypto i event).knows i = s.knows i := by
  have hnone : ((s.nodes i).act crypto event).2.filterMap Effect.added = [] :=
    List.filterMap_eq_nil_iff.2 hadded
  unfold BlockchainManager.step at hopens
  simp [act, hnone, hopens]

/-- **Inside a round.** -/
theorem Inv.act_stays (h : s.Inv crypto genesis pool)
    (hstays : (s.nodes i).StaysInRound crypto event)
    (hsound : (s.nodes i).ActsSoundly crypto event) :
    (s.act crypto i event).Inv crypto genesis pool := by
  have hgrows : Grows s (s.act crypto i event) := s.act_grows i event
  have hnodes : (s.act crypto i event).nodes i = (s.nodes i).step crypto event :=
    s.act_nodes i event
  obtain ⟨hadded, hown, hknows⟩ := act_records (s := s) (i := i)
    (fun hopens => hopens.1 (hstays.state.1 hopens.2)) hstays.added
  have hnode : (s.act crypto i event).NodeOk crypto genesis pool i := by
    refine (h.node i).stays hgrows hadded hown hknows ?_ ?_ ?_ ?_ <;> rw [hnodes]
    · exact ((h.node i).node.step hsound).1
    · exact hstays.blockchain
    · exact hstays.state
    · exact hstays.same
  refine h.of_node hgrows (act_others crypto s i event) hnode fun message hmessage => ?_
  rcases List.mem_append.1 hmessage with hold | hnew
  · exact Or.inl hold
  · -- What is sent is the own block.
    obtain ⟨block, hblock, rfl⟩ := List.mem_map.1 hnew
    obtain ⟨effect, hmem, heffect⟩ := List.mem_filterMap.1 hblock
    obtain ⟨hstate, rfl⟩ := hstays.propagated effect hmem block heffect
    have hok := hnode.messageOk (by rw [hnodes]; exact hstays.state.2 hstate)
    rw [hnodes, (hstays.same hstate).1] at hok
    unfold round at hok
    simp only [act, Function.update_self] at hok hadded hknows ⊢
    exact Or.inr hok

/-- The network after a node has started its negotiation. -/
def opened (s : Network ι) (i : ι) (m : BlockchainManager) : Network ι where
  nodes := Function.update s.nodes i m
  sent := s.sent ++ [{ sender := i, block := m.newBlock, round := s.round i, knows := {i} }]
  added := s.added
  own := Function.update s.own i (s.own i ++ [m.newBlock])
  knows := Function.update s.knows i {i}

theorem act_advance_start (crypto : CryptoHelper) (now : BlockchainTime)
    (hstate : (s.nodes i).currentState = none ∨ (s.nodes i).currentState = some .collect) :
    s.act crypto i (.advance now) =
      s.opened i ((s.nodes i).enterState crypto .introduceBlock now).1 := by
  obtain ⟨-, hact⟩ := (s.nodes i).act_advance_start crypto now hstate
  have hclosed : (s.nodes i).currentState ≠ some .introduceBlock := by
    rcases hstate with hstate | hstate <;> simp [hstate]
  have heffects : ((s.nodes i).enterState crypto .introduceBlock now).2 =
      [.propagateBlock ((s.nodes i).enterState crypto .introduceBlock now).1.newBlock] := rfl
  simp [act, opened, hact, heffects, hclosed, Effect.added, Effect.propagated, round]

/-- A node that has just started its negotiation accounts for itself. -/
theorem NodeOk.opened {m : BlockchainManager} (h : s.NodeOk crypto genesis pool i)
    (hgrows : Grows s (s.opened i m))
    (hclosed : (s.nodes i).currentState ≠ some .introduceBlock) (hnode : NodeInv crypto m)
    (hstate : m.currentState = some .introduceBlock)
    (hchain : m.blockchain = (s.nodes i).blockchain)
    (hprocessed : m.cycleStateIntroduceBlock.processedBlocks = ∅)
    (hpoolT : ∀ entry ∈ m.newBlock.transactions, entry ∈ (pool (s.round i)).transactions)
    (hpoolC : ∀ entry ∈ m.newBlock.creations, entry ∈ (pool (s.round i)).creations ∧
      entry.1 = entry.2.header.genericHeader.blockHash)
    (haffords : m.blockchain.Affords (pool (s.round i))) :
    (s.opened i m).NodeOk crypto genesis pool i := by
  -- Before it begins, a node has made one own block for each round it has added.
  have hrounds : (s.own i).length = s.round i := by
    have hlength := h.rounds
    rw [if_neg hclosed] at hlength
    exact hlength
  have hnodes : (s.opened i m).nodes i = m := Function.update_self ..
  have hround : (s.opened i m).round i = s.round i := rfl
  have hown : (s.opened i m).own i = s.own i ++ [m.newBlock] := Function.update_self ..
  have hknows : (s.opened i m).knows i = {i} := Function.update_self ..
  have hself : ((s.opened i m).own i)[s.round i]? = some m.newBlock := by
    rw [hown, ← hrounds, List.getElem?_concat_length]
  have hlength : ((s.opened i m).own i).length = s.round i + 1 := by
    rw [hown, List.length_append, hrounds, List.length_singleton]
  have hcontents := (hnode.introduced hstate).contents.choose_spec.2
  refine ⟨by rw [hnodes]; exact hnode, ?_, fun round block => h.decided_grows hgrows, ?_, ?_, ?_,
    fun _ => ⟨∅, ?_, ?_, ?_, ?_, ?_⟩⟩
  · rw [hround, hgrows.chain (le_refl _), hnodes, hchain]
    exact h.chain
  · rw [hlength, hround, hnodes, if_pos hstate]
  · intro round block hblock
    -- Only the block of this round is new.
    rcases Nat.lt_or_ge round (s.own i).length with hold | hnew
    · rw [hown, List.getElem?_append_left hold] at hblock
      exact h.pooled round block hblock
    · have hlt := (List.getElem?_eq_some_iff.1 hblock).1
      obtain rfl : round = s.round i := by omega
      rw [hself] at hblock
      cases hblock
      exact ⟨hpoolT, hpoolC⟩
  · intro round hlt
    rw [hgrows.chain (by omega)]
    rcases Nat.lt_or_ge round (s.own i).length with hold | hnew
    · exact h.affords round hold
    · obtain rfl : round = s.round i := by omega
      rw [hchain] at haffords
      exact h.chain.affords.1 haffords
  · exact fun block hblock => absurd hblock (Set.notMem_empty _)
  · intro k hk
    rw [hknows, Finset.mem_singleton] at hk
    rw [hk, hlength, hround]
    exact Nat.lt_succ_self _
  · rw [hknows, hnodes, Finset.coe_singleton, hround]
    exact AccountsFor.self hself (dataValues_nodup_iff.1 hcontents.dataValues)
      hcontents.numTransactions hcontents.numCreations
  · rw [hnodes, hprocessed]
    exact fun hash hhash => absurd hhash List.not_mem_nil
  · rw [hnodes, hprocessed]
    exact fun entry he => absurd he List.not_mem_nil

/-- **A node starts its negotiation.** -/
theorem Inv.act_open (h : s.Inv crypto genesis pool) (now : BlockchainTime)
    (hstate : (s.nodes i).currentState = none ∨ (s.nodes i).currentState = some .collect)
    (hopen : s.MayOpen pool i) : (s.act crypto i (.advance now)).Inv crypto genesis pool := by
  obtain ⟨hid, hvalues, hpoolT, hpoolC, haffords⟩ := hopen
  have hok := h.node i
  have hsound : (s.nodes i).OwnBlockSound := ⟨hid, hvalues, haffords.covers hpoolT hpoolC⟩
  have hnode := (hok.node.advance_start hstate now fun _ => hsound).1
  obtain ⟨-, hact⟩ := (s.nodes i).act_advance_start crypto now hstate
  rw [BlockchainManager.step, hact] at hnode
  obtain ⟨newest, hn, -⟩ := hok.node.tip.newest
  have hnew := BlockchainManager.enterState_newBlock crypto now hn
  have hgrows : Grows s (s.act crypto i (.advance now)) := s.act_grows i (.advance now)
  have hothers := act_others crypto s i (.advance now)
  rw [act_advance_start crypto now hstate] at hgrows hothers ⊢
  have hnodeOk := hok.opened hgrows
    (by rcases hstate with hstate | hstate <;> simp [hstate]) hnode rfl rfl rfl
    (by rw [hnew]; exact hpoolT)
    (by
      rw [hnew]
      exact fun entry he => ⟨hpoolC entry he, (hok.node.collected hstate).creationKeys entry he⟩)
    haffords
  refine h.of_node hgrows hothers hnodeOk fun message hmessage => ?_
  rcases List.mem_append.1 hmessage with hold | hnewMessage
  · exact Or.inl hold
  · rw [List.mem_singleton.1 hnewMessage]
    have hmessageOk := hnodeOk.messageOk (by simp [opened])
    simp only [opened, Function.update_self] at hmessageOk ⊢
    exact Or.inr hmessageOk

/-- The network after a node has added its block. -/
def closed (s : Network ι) (i : ι) (m : BlockchainManager) (block : CollectionBlock) :
    Network ι where
  nodes := Function.update s.nodes i m
  sent := s.sent
  added := Function.update s.added i (s.added i ++ [block])
  own := s.own
  knows := s.knows

theorem act_advance_close (now : BlockchainTime)
    (hstate : (s.nodes i).currentState = some .introduceBlock)
    (hfilled : refillHash crypto (s.nodes i).newBlock = (s.nodes i).newBlock) :
    s.act crypto i (.advance now) =
      s.closed i ((s.nodes i).step crypto (.advance now)) (s.nodes i).newBlock := by
  obtain ⟨-, -, heffects⟩ := BlockchainManager.act_advance_close hstate now hfilled
  simp [act, closed, heffects, hstate, Effect.added, Effect.propagated, BlockchainManager.step]

/-- **A node ends its negotiation.** -/
theorem Inv.act_close (h : s.Inv crypto genesis pool) (now : BlockchainTime)
    (hstate : (s.nodes i).currentState = some .introduceBlock) (hknows : ∀ k, k ∈ s.knows i) :
    (s.act crypto i (.advance now)).Inv crypto genesis pool := by
  have hok := h.node i
  have hdecided := hok.decides hstate hknows
  have hfilled : refillHash crypto (s.nodes i).newBlock = (s.nodes i).newBlock :=
    refillHash_eq_self crypto hdecided.accepted.contents.choose_spec.2.hash
  obtain ⟨hleft, hchain, -⟩ := BlockchainManager.act_advance_close hstate now hfilled
  have hnode := (hok.node.advance_introduceBlock hstate now).1
  have hgrows : Grows s (s.act crypto i (.advance now)) := s.act_grows i (.advance now)
  have hothers := act_others crypto s i (.advance now)
  rw [act_advance_close now hstate hfilled] at hgrows hothers ⊢
  refine h.of_node hgrows hothers ?_ fun message hmessage => Or.inl hmessage
  -- From here on only the lists of the new state matter.
  generalize hs' : s.closed i ((s.nodes i).step crypto (.advance now)) (s.nodes i).newBlock = s'
    at hgrows
  have hnodes : s'.nodes i = (s.nodes i).step crypto (.advance now) := by
    rw [← hs']
    exact Function.update_self ..
  have hadded : s'.added i = s.added i ++ [(s.nodes i).newBlock] := by
    rw [← hs']
    exact Function.update_self ..
  have hown : s'.own i = s.own i := by rw [← hs']; rfl
  have hround : s'.round i = s.round i + 1 := by simp [round, hadded]
  have hlast : (s'.added i)[s.round i]? = some (s.nodes i).newBlock := by
    rw [hadded, round, List.getElem?_concat_length]
  have hrounds := hok.rounds
  rw [if_pos hstate] at hrounds
  have hleft' : (s'.nodes i).currentState ≠ some .introduceBlock := by
    rw [hnodes]
    exact hleft
  refine ⟨by rw [hnodes]; exact hnode, ?_, ?_, ?_, ?_, ?_, fun hnegotiates =>
    absurd hnegotiates hleft'⟩
  · rw [hround, chain_succ hlast, hgrows.chain (le_refl _), hnodes, BlockchainManager.step, hchain]
    exact hok.chain.extend _
  · intro round block hblock
    rcases Nat.lt_or_ge round (s.round i) with hold | hnew
    · rw [hadded, List.getElem?_append_left hold] at hblock
      exact hok.decided_grows hgrows hblock
    · have hlt : round < s'.round i := (List.getElem?_eq_some_iff.1 hblock).1
      obtain rfl : round = s.round i := by omega
      rw [hlast] at hblock
      cases hblock
      rw [hgrows.chain (le_refl _)]
      exact hdecided.grows hgrows
  · rw [hown, hrounds, hround, if_neg hleft']
  · rw [hown]
    exact hok.pooled
  · intro round hlt
    rw [hown] at hlt
    rw [hgrows.chain (by omega)]
    exact hok.affords round hlt

end Act

end Network

end SwabianCoin
