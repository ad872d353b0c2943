import SwabianCoin.Verdicts

/-!
# Who supports a late sub-block?

Towards the end of a negotiation a sub-block has to be counted several times before it gets into
the own block, so that almost all peers must have sent it. What is counted are messages, though,
not peers. Under the condition that every message counts for another peer and for the same
sub-block (`CountsOnce`), a count is bounded by the number of peers behind it (`CountsBacked`),
and whatever is granted has enough supporters.
-/

namespace SwabianCoin

open Machine

/-! ## Counts and peers -/

section Kind

variable {β : Type} (crypto : CryptoHelper) (bc : Blockchain)
  (subBlocks : CollectionBlock → OrdMap Hash β) (heard : List (PeerId × CollectionBlock))

/-- The peers that have sent a valid block with the sub-block. -/
def supporters [DecidableEq β] (subBlock : β) : Finset PeerId :=
  ((heard.filter fun message => decide (bc.Accepts crypto message.2) &&
    decide (subBlock ∈ (subBlocks message.2).values)).map Prod.fst).toFinset

/-- The peers that have sent a valid block with some sub-block under the key. -/
def offerers (key : Hash) : Finset PeerId :=
  ((heard.filter fun message => decide (bc.Accepts crypto message.2) &&
    decide (key ∈ (subBlocks message.2).keys)).map Prod.fst).toFinset

/-- Whoever has sent a valid block with a key that is being counted is another peer than the
sender of this block, and has sent the same sub-block under the key. -/
def CountedOnce (counter : OrdMap Hash UInt32) (peer : PeerId) (block : CollectionBlock) : Prop :=
  ∀ entry ∈ subBlocks block, entry.1 ∈ counter.keys → ∀ message ∈ heard,
    bc.Accepts crypto message.2 → entry.1 ∈ (subBlocks message.2).keys →
      message.1 ≠ peer ∧ entry ∈ subBlocks message.2

instance [DecidableEq β] (counter : OrdMap Hash UInt32) (peer : PeerId) (block : CollectionBlock) :
    Decidable (CountedOnce crypto bc subBlocks heard counter peer block) :=
  inferInstanceAs (Decidable (∀ entry ∈ subBlocks block, _))

/-- No count exceeds the number of peers that have sent the key, and none is larger than any
threshold. -/
def CountsBacked (counter : OrdMap Hash UInt32) : Prop :=
  ∀ key, (counter.getD key 0).toNat ≤ (offerers crypto bc subBlocks heard key).card ∧
    (counter.getD key 0).toNat < 8

variable {crypto bc subBlocks heard}

theorem mem_supporters [DecidableEq β] {subBlock : β} {peer : PeerId} :
    peer ∈ supporters crypto bc subBlocks heard subBlock ↔
      ∃ block, (peer, block) ∈ heard ∧ bc.Accepts crypto block ∧
        subBlock ∈ (subBlocks block).values := by
  simp [supporters]

theorem mem_offerers {key : Hash} {peer : PeerId} :
    peer ∈ offerers crypto bc subBlocks heard key ↔
      ∃ block, (peer, block) ∈ heard ∧ bc.Accepts crypto block ∧ key ∈ (subBlocks block).keys := by
  simp [offerers]

theorem offerers_mono (message : PeerId × CollectionBlock) (key : Hash) :
    offerers crypto bc subBlocks heard key ⊆
      offerers crypto bc subBlocks (heard ++ [message]) key := by
  intro peer hpeer
  obtain ⟨block, hmem, hrest⟩ := mem_offerers.1 hpeer
  exact mem_offerers.2 ⟨block, List.mem_append_left _ hmem, hrest⟩

variable {counter : OrdMap Hash UInt32} {peer : PeerId} {block : CollectionBlock}

/-- With this message there is a peer more behind a key than its count says. -/
theorem CountsBacked.lt_card (h : CountsBacked crypto bc subBlocks heard counter)
    (honce : CountedOnce crypto bc subBlocks heard counter peer block) {key : Hash} {subBlock : β}
    (hentry : (key, subBlock) ∈ subBlocks block) {peers : Finset PeerId} (hself : peer ∈ peers)
    (hsub : key ∈ counter.keys → offerers crypto bc subBlocks heard key ⊆ peers) :
    (counter.getD key 0).toNat < peers.card := by
  by_cases hkey : key ∈ counter.keys
  · have hnew : peer ∉ offerers crypto bc subBlocks heard key := by
      intro hpeer
      obtain ⟨block', hmem, hvalid', hkey'⟩ := mem_offerers.1 hpeer
      exact (honce _ hentry hkey _ hmem hvalid' hkey').1 rfl
    have hcard := Finset.card_le_card (Finset.insert_subset hself (hsub hkey))
    rw [Finset.card_insert_of_notMem hnew] at hcard
    have hback := (h key).1
    omega
  · rw [OrdMap.getD_of_not_mem hkey]
    exact Finset.card_pos.2 ⟨peer, hself⟩

theorem CountsBacked.lt_card_offerers (h : CountsBacked crypto bc subBlocks heard counter)
    (honce : CountedOnce crypto bc subBlocks heard counter peer block)
    (hvalid : bc.Accepts crypto block) {key : Hash} {subBlock : β}
    (hentry : (key, subBlock) ∈ subBlocks block) :
    (counter.getD key 0).toNat <
      (offerers crypto bc subBlocks (heard ++ [(peer, block)]) key).card := by
  refine h.lt_card honce hentry ?_ fun _ => offerers_mono _ key
  exact mem_offerers.2 ⟨block, by simp, hvalid, OrdMap.mem_keys.2 ⟨subBlock, hentry⟩⟩

theorem CountsBacked.lt_card_supporters [DecidableEq β]
    (h : CountsBacked crypto bc subBlocks heard counter)
    (honce : CountedOnce crypto bc subBlocks heard counter peer block)
    (hvalid : bc.Accepts crypto block) {key : Hash} {subBlock : β}
    (hentry : (key, subBlock) ∈ subBlocks block) :
    (counter.getD key 0).toNat <
      (supporters crypto bc subBlocks (heard ++ [(peer, block)]) subBlock).card := by
  refine h.lt_card honce hentry ?_ fun hkey p hp => ?_
  · exact mem_supporters.2 ⟨block, by simp, hvalid, OrdMap.mem_values.2 ⟨key, hentry⟩⟩
  · obtain ⟨block', hmem, hvalid', hkey'⟩ := mem_offerers.1 hp
    have hsame := (honce _ hentry hkey _ hmem hvalid' hkey').2
    exact mem_supporters.2 ⟨block', List.mem_append_left _ hmem, hvalid',
      OrdMap.mem_values.2 ⟨key, hsame⟩⟩

theorem toNat_succ_of_lt {count : UInt32} (h : count.toNat < 8) :
    (count + 1).toNat = count.toNat + 1 := by
  rw [UInt32.toNat_add, UInt32.toNat_one]
  omega

variable {letIn : OrdMap Hash β → Hash → β → OrdMap Hash β} {threshold : UInt32}
  {admitted : OrdMap Hash β}

theorem CountsBacked.offerAll (h : CountsBacked crypto bc subBlocks heard counter)
    (honce : CountedOnce crypto bc subBlocks heard counter peer block)
    (hvalid : bc.Accepts crypto block) (hthreshold : threshold.toNat ≤ 8) :
    CountsBacked crypto bc subBlocks (heard ++ [(peer, block)])
      (Ballot.offerAll letIn threshold { admitted, counter } (subBlocks block)).counter := by
  intro key
  have hmono : (offerers crypto bc subBlocks heard key).card ≤
      (offerers crypto bc subBlocks (heard ++ [(peer, block)]) key).card :=
    Finset.card_le_card (offerers_mono _ key)
  rcases Ballot.counter_offerAll letIn threshold { admitted, counter } (subBlocks block) key with
    hsame | hzero | ⟨⟨subBlock, hentry⟩, hlt, hsucc⟩
  · rw [hsame]
    exact ⟨(h key).1.trans hmono, (h key).2⟩
  · rw [hzero]
    exact ⟨Nat.zero_le _, by decide⟩
  · have hcount := h.lt_card_offerers honce hvalid hentry
    have hnat := toNat_succ_of_lt (h key).2
    rw [UInt32.lt_iff_toNat_lt] at hlt
    rw [hsucc, hnat]
    dsimp only at hlt
    rw [hnat] at hlt
    exact ⟨hcount, by omega⟩

/-- Whatever a valid block gets granted has enough supporters. -/
theorem CountsBacked.le_card_of_granted [DecidableEq β]
    (h : CountsBacked crypto bc subBlocks heard counter)
    (honce : CountedOnce crypto bc subBlocks heard counter peer block)
    (hvalid : bc.Accepts crypto block) {key : Hash} {subBlock : β}
    (hgranted : Vote.granted key subBlock ∈
      (Ballot.offerAll letIn threshold { admitted, counter } (subBlocks block)).record) :
    threshold.toNat ≤
      (supporters crypto bc subBlocks (heard ++ [(peer, block)]) subBlock).card := by
  rcases Ballot.granted_offerAll letIn threshold { admitted, counter } (subBlocks block) hgranted
    with hold | ⟨hentry, hge⟩
  · exact absurd hold List.not_mem_nil
  · have hcount := h.lt_card_supporters honce hvalid hentry
    have hnat := toNat_succ_of_lt (h key).2
    rw [UInt32.le_iff_toNat_le] at hge
    dsimp only at hge
    rw [hnat] at hge
    omega

end Kind

/-! ## Phases -/

/-- A message that counts for a new peer: the verdict recorded under its claimed hash, if it is
used, is not better than its own, and every sub-block that is being counted has so far been sent
by other peers only, and the same under its key. -/
def CountsOnce (crypto : CryptoHelper) (start : BlockchainManager)
    (heard : List (PeerId × CollectionBlock)) (m : BlockchainManager) (peer : PeerId)
    (block : CollectionBlock) : Prop :=
  (¬ m.cycleStateIntroduceBlock.CountersEmpty →
    ∀ first ∈ firstClaim start.newBlock.header.blockUid block.header.genericHeader.blockHash heard,
      start.blockchain.Accepts crypto first → start.blockchain.Accepts crypto block) ∧
  CountedOnce crypto start.blockchain CollectionBlock.transactions heard
    m.cycleStateIntroduceBlock.transactionSubBlockCounter peer block ∧
  CountedOnce crypto start.blockchain CollectionBlock.creations heard
    m.cycleStateIntroduceBlock.creationSubBlockCounter peer block

instance (crypto : CryptoHelper) (start : BlockchainManager)
    (heard : List (PeerId × CollectionBlock)) (m : BlockchainManager) (peer : PeerId)
    (block : CollectionBlock) : Decidable (CountsOnce crypto start heard m peer block) :=
  inferInstanceAs (Decidable (_ ∧ _))

/-- Every sub-block that an event puts into the own block has been sent, in valid blocks of this
phase, by as many peers as are necessary now. -/
def InsertionsSupported (crypto : CryptoHelper) (start : BlockchainManager)
    (heard : List (PeerId × CollectionBlock)) (m : BlockchainManager) (event : ManagerEvent) :
    Prop :=
  (∀ key subBlock, Effect.transactionVote (.granted key subBlock) ∈ m.effects crypto event →
    m.cycleStateIntroduceBlock.threshold.toNat ≤
      (supporters crypto start.blockchain CollectionBlock.transactions
        (heard ++ event.message.toList) subBlock).card) ∧
  ∀ key subBlock, Effect.creationVote (.granted key subBlock) ∈ m.effects crypto event →
    m.cycleStateIntroduceBlock.threshold.toNat ≤
      (supporters crypto start.blockchain CollectionBlock.creations
        (heard ++ event.message.toList) subBlock).card

theorem threshold_le (state : CycleStateIntroduceBlock) : state.threshold.toNat ≤ 8 := by
  unfold CycleStateIntroduceBlock.threshold
  have hall : (peersNecessaryForGranting.all fun n => decide (n.toNat ≤ 8)) = true := by decide
  rw [List.getD_eq_getElem?_getD]
  cases hget : peersNecessaryForGranting[min 21 state.numPropagationsInCurrentCycle.toNat]? with
  | none => decide
  | some n => exact of_decide_eq_true (List.all_eq_true.1 hall n (List.mem_of_getElem? hget))

/-- The invariant: verdicts are recorded as they should be, and all counts are backed. -/
structure Backed (crypto : CryptoHelper) (start : BlockchainManager)
    (heard : List (PeerId × CollectionBlock)) (m : BlockchainManager) : Prop where
  recorded : Recorded crypto start heard m
  transactions : CountsBacked crypto start.blockchain CollectionBlock.transactions heard
    m.cycleStateIntroduceBlock.transactionSubBlockCounter
  creations : CountsBacked crypto start.blockchain CollectionBlock.creations heard
    m.cycleStateIntroduceBlock.creationSubBlockCounter

namespace Backed

variable {crypto : CryptoHelper} {start m : BlockchainManager}
  {heard : List (PeerId × CollectionBlock)} {peer : PeerId} {block : CollectionBlock}

theorem accepts_of_merged (h : Backed crypto start heard m)
    (hinv : BlockchainManager.PhaseInv start m) (honce : CountsOnce crypto start heard m peer block)
    (hc : m.Considers block) (htrue : (m.judge crypto block).1 = true) :
    start.blockchain.Accepts crypto block := by
  rw [h.recorded.judge_fst hinv] at htrue
  cases hfirst : firstClaim start.newBlock.header.blockUid block.header.genericHeader.blockHash
      heard with
  | none =>
    rw [hfirst] at htrue
    exact htrue
  | some first =>
    rw [hfirst] at htrue
    have hseen : block.header.genericHeader.blockHash ∈
        m.cycleStateIntroduceBlock.processedBlocks.keys := by
      rw [← h.recorded.isSome_firstClaim_iff, hfirst]
      rfl
    exact honce.1 (hc.2 hseen) first hfirst htrue

theorem concat (h : Backed crypto start heard m) (message : PeerId × CollectionBlock) :
    CountsBacked crypto start.blockchain CollectionBlock.transactions (heard ++ [message])
        m.cycleStateIntroduceBlock.transactionSubBlockCounter ∧
      CountsBacked crypto start.blockchain CollectionBlock.creations (heard ++ [message])
        m.cycleStateIntroduceBlock.creationSubBlockCounter :=
  ⟨fun key => ⟨(h.transactions key).1.trans (Finset.card_le_card (offerers_mono message key)),
      (h.transactions key).2⟩,
    fun key => ⟨(h.creations key).1.trans (Finset.card_le_card (offerers_mono message key)),
      (h.creations key).2⟩⟩

theorem considerBlock (h : Backed crypto start heard m)
    (hinv : BlockchainManager.PhaseInv start m)
    (honce : CountsOnce crypto start heard m peer block) :
    Backed crypto start (heard ++ [(peer, block)]) (m.considerBlock crypto peer block).1 := by
  have hrecorded := h.recorded.considerBlock hinv peer block
  have hsame := h.concat (peer, block)
  rcases BlockchainManager.considerBlock_cases crypto m peer block with
    ⟨-, heq⟩ | ⟨hc, htrue, -, heq⟩ | ⟨-, -, -, heq⟩ | ⟨-, -, heq⟩ <;> rw [heq] at hrecorded ⊢
  · exact ⟨hrecorded, hsame.1, hsame.2⟩
  · have hvalid := h.accepts_of_merged hinv honce hc htrue
    exact ⟨hrecorded, h.transactions.offerAll honce.2.1 hvalid (threshold_le _),
      h.creations.offerAll honce.2.2 hvalid (threshold_le _)⟩
  · exact ⟨hrecorded, hsame.1, hsame.2⟩
  · exact ⟨hrecorded, hsame.1, hsame.2⟩

theorem insertionsSupported (h : Backed crypto start heard m)
    (hinv : BlockchainManager.PhaseInv start m) {event : ManagerEvent}
    (hstays : event.StaysInState)
    (honce : ∀ message ∈ event.message, CountsOnce crypto start heard m message.1 message.2) :
    InsertionsSupported crypto start heard m event := by
  constructor
  · intro key subBlock hmem
    have hvote : IsVote (.transactionVote (.granted key subBlock)) := trivial
    obtain ⟨peer, block, hmessage, hc, htrue, hmem⟩ :=
      merged_of_vote hinv.currentState hstays hvote hmem
    have honce := honce (peer, block) hmessage
    have hvalid := h.accepts_of_merged hinv honce hc htrue
    have hgranted := transactionVote_mem_mergeBlock.1 hmem
    rw [BlockchainManager.judge_offerTransactions] at hgranted
    rw [hmessage]
    exact h.transactions.le_card_of_granted honce.2.1 hvalid hgranted
  · intro key subBlock hmem
    have hvote : IsVote (.creationVote (.granted key subBlock)) := trivial
    obtain ⟨peer, block, hmessage, hc, htrue, hmem⟩ :=
      merged_of_vote hinv.currentState hstays hvote hmem
    have honce := honce (peer, block) hmessage
    have hvalid := h.accepts_of_merged hinv honce hc htrue
    have hgranted := creationVote_mem_mergeBlock.1 hmem
    rw [BlockchainManager.judge_offerCreations] at hgranted
    rw [hmessage]
    exact h.creations.le_card_of_granted honce.2.2 hvalid hgranted

end Backed

/-- **Late sub-blocks have distinct supporters** in every phase whose messages all count once. -/
theorem IntroducePhase.insertionsSupported_of_countsOnce (crypto : CryptoHelper)
    (phase : IntroducePhase)
    (honce : phase.OnMessages crypto (CountsOnce crypto (phase.start crypto))) :
    phase.AllEvents crypto (InsertionsSupported crypto (phase.start crypto)) := by
  have hback := IntroducePhase.invariant (P := Backed crypto (phase.start crypto)) honce ?_ ?_ ?_ ?_
  · have hstays : Run.AllSteps (IntroducePhase.hear crypto) (fun _ event => event.StaysInState)
        ([], phase.start crypto) phase.events :=
      Run.AllSteps.of_forall_mem fun event hevent _ => phase.stays event hevent
    refine (Run.AllSteps.and.2 ⟨hback.allSteps, Run.AllSteps.and.2 ⟨hstays, honce⟩⟩).mono ?_
    rintro heard event ⟨⟨hinv, h⟩, hstay, hmessage⟩
    exact h.insertionsSupported hinv hstay hmessage
  · have hzero : (0 : UInt32).toNat < 8 := by decide
    exact ⟨fun hash => rfl, fun key => ⟨Nat.zero_le _, hzero⟩, fun key => ⟨Nat.zero_le _, hzero⟩⟩
  · intro heard m m' h hs
    exact ⟨fun hash => by rw [hs.state]; exact h.recorded hash,
      by rw [hs.state]; exact h.transactions, by rw [hs.state]; exact h.creations⟩
  · intro heard m now h
    obtain ⟨hprocessed, htransactions, hcreations, -, -⟩ := m.cycleIntroduceBlock_records now
    exact ⟨fun hash => by rw [hprocessed]; exact h.recorded hash,
      by rw [htransactions]; exact h.transactions, by rw [hcreations]; exact h.creations⟩
  · intro heard m peer block hinv hmessage h
    exact h.considerBlock hinv hmessage

namespace Sample

/-- Two peers send the valid block late in the phase. -/
def twoSenders : IntroducePhase where
  before := node
  enteredAt := 0
  events := tenPropagations ++ [.collectionBlockReceived [1] honestBlock false 0,
    .collectionBlockReceived [2] honestBlock false 0]
  stays := by decide

/-- One peer sends it twice. -/
def oneSender : IntroducePhase where
  before := node
  enteredAt := 0
  events := tenPropagations ++ [.collectionBlockReceived [1] honestBlock false 0,
    .collectionBlockReceived [1] honestBlock false 0]
  stays := by decide

end Sample

/-- With two senders the payment gets in, and the condition holds. -/
theorem twoSenders_supported :
    (Sample.twoSenders.state .sample).newBlock.transactions.values = [Sample.paymentOfA] ∧
      Sample.twoSenders.AllEvents .sample
        (InsertionsSupported .sample (Sample.twoSenders.start .sample)) :=
  ⟨by decide +kernel, Sample.twoSenders.insertionsSupported_of_countsOnce .sample (by
    unfold IntroducePhase.OnMessages IntroducePhase.AllEvents
    decide +kernel)⟩

/-- One peer that repeats itself gets its payment in when two peers are necessary. -/
theorem oneSender_suffices :
    ¬ ∀ phase : IntroducePhase,
      phase.AllEvents .sample (InsertionsSupported .sample (phase.start .sample)) := by
  intro h
  have hall := h Sample.oneSender
  rw [IntroducePhase.AllEvents, show Sample.oneSender.events = Sample.latePhase.events ++
    [.collectionBlockReceived [1] Sample.honestBlock false 0] from rfl, Run.AllSteps.append] at hall
  have hlast := hall.2.1.1 Sample.paymentOfA.header.genericHeader.blockHash Sample.paymentOfA
    (by decide +kernel)
  exact absurd hlast (by decide +kernel)

end SwabianCoin
