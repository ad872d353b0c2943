import SwabianCoin.Phase
import SwabianCoin.SignedOnce

/-!
# Whose verdict is it?

During a negotiation a verdict is recorded under the hash a block claims to have, before anybody
has checked that claim. A later block with the same claim gets the recorded verdict, whatever it
contains. `Recorded` says exactly which verdict that is: the one on the first block
of the phase with the claim. From there it is decided which received blocks are treated as
`validateBlock` would treat them, and which are misjudged.
-/

namespace SwabianCoin

open Machine

variable {crypto : CryptoHelper}

/-! ## The recorded verdict -/

/-- The first block received with the given id and claimed hash. -/
def firstClaim (uid : BlockUid) (hash : Hash) (messages : List (PeerId × CollectionBlock)) :
    Option CollectionBlock :=
  (messages.map Prod.snd).find? fun block =>
    block.header.blockUid == uid && block.header.genericHeader.blockHash == hash

theorem firstClaim_concat (uid : BlockUid) (hash : Hash)
    (messages : List (PeerId × CollectionBlock)) (peer : PeerId) (block : CollectionBlock) :
    firstClaim uid hash (messages ++ [(peer, block)]) =
      (firstClaim uid hash messages).or
        (if block.header.blockUid = uid ∧ block.header.genericHeader.blockHash = hash then
          some block else none) := by
  unfold firstClaim
  rw [List.map_append, List.find?_append]
  congr 1
  by_cases h : block.header.blockUid = uid ∧ block.header.genericHeader.blockHash = hash
  · simp [h]
  · rw [if_neg h]
    simpa using h

/-- The verdict on a block does not change during a phase. -/
theorem BlockchainManager.PhaseInv.validateBlock_fst {start m : BlockchainManager}
    (h : BlockchainManager.PhaseInv start m) (block : CollectionBlock) :
    (m.blockchain.validateBlock crypto block).1 = (start.blockchain.validateBlock crypto block).1 :=
  Bool.eq_iff_iff.2 h.blockchain.accepts

/-- What the record says about a claimed hash. -/
def Recorded (crypto : CryptoHelper) (start : BlockchainManager)
    (heard : List (PeerId × CollectionBlock)) (m : BlockchainManager) : Prop :=
  ∀ hash, m.cycleStateIntroduceBlock.processedBlocks.find? hash =
    (firstClaim start.newBlock.header.blockUid hash heard).map fun block =>
      (start.blockchain.validateBlock crypto block).1

namespace Recorded

variable {start m : BlockchainManager} {heard : List (PeerId × CollectionBlock)}

theorem isSome_firstClaim_iff (h : Recorded crypto start heard m) (hash : Hash) :
    (firstClaim start.newBlock.header.blockUid hash heard).isSome ↔
      hash ∈ m.cycleStateIntroduceBlock.processedBlocks.keys := by
  rw [← OrdMap.contains_iff, OrdMap.contains, h hash, Option.isSome_map]

theorem judge_fst (h : Recorded crypto start heard m)
    (hinv : BlockchainManager.PhaseInv start m) (block : CollectionBlock) :
    (m.judge crypto block).1 =
      (start.blockchain.validateBlock crypto
        ((firstClaim start.newBlock.header.blockUid block.header.genericHeader.blockHash
          heard).getD block)).1 := by
  rw [BlockchainManager.judge_fst, hinv.validateBlock_fst, h]
  cases firstClaim start.newBlock.header.blockUid block.header.genericHeader.blockHash heard <;>
    rfl

theorem considerBlock (h : Recorded crypto start heard m)
    (hinv : BlockchainManager.PhaseInv start m) (peer : PeerId) (block : CollectionBlock) :
    Recorded crypto start (heard ++ [(peer, block)]) (m.considerBlock crypto peer block).1 := by
  intro hash
  rw [firstClaim_concat]
  by_cases hconsiders : m.Considers block
  · rw [BlockchainManager.considerBlock_processedBlocks crypto hconsiders, OrdMap.find?_insert,
      h hash]
    by_cases hhash : hash = block.header.genericHeader.blockHash
    · subst hhash
      rw [if_pos rfl, h.judge_fst hinv, if_pos ⟨hconsiders.1.trans hinv.blockUid, rfl⟩]
      cases firstClaim start.newBlock.header.blockUid block.header.genericHeader.blockHash heard <;>
        rfl
    · rw [if_neg hhash, if_neg fun hclaim => hhash hclaim.2.symm, Option.or_none]
  · rw [BlockchainManager.considerBlock_of_not_considers crypto hconsiders, h hash]
    by_cases hclaim : block.header.blockUid = start.newBlock.header.blockUid ∧
        block.header.genericHeader.blockHash = hash
    · -- Ignored although it has the right id: its claim is on record.
      have hseen : hash ∈ m.cycleStateIntroduceBlock.processedBlocks.keys := by
        by_contra hunseen
        refine hconsiders ⟨hclaim.1.trans hinv.blockUid.symm, fun hkey => absurd hkey ?_⟩
        rw [hclaim.2]
        exact hunseen
      obtain ⟨first, hfirst⟩ :=
        Option.isSome_iff_exists.1 ((h.isSome_firstClaim_iff hash).2 hseen)
      rw [hfirst]
      rfl
    · rw [if_neg hclaim, Option.or_none]

end Recorded

/-- **Which verdict is recorded under a hash.** -/
theorem IntroducePhase.recorded (crypto : CryptoHelper) (phase : IntroducePhase) :
    BlockchainManager.PhaseInv (phase.start crypto) (phase.state crypto) ∧
      Recorded crypto (phase.start crypto) phase.messages (phase.state crypto) := by
  refine IntroducePhase.at_end (IntroducePhase.invariant (Q := fun _ _ _ _ => True) ?_ ?_ ?_ ?_ ?_)
  · exact Run.AllSteps.of_forall_mem fun _ _ _ _ _ => trivial
  · intro hash
    rfl
  · intro heard m m' h hs hash
    rw [hs.state]
    exact h hash
  · intro heard m now h hash
    rw [(m.cycleIntroduceBlock_records now).1]
    exact h hash
  · intro heard m peer block hinv _ h
    exact h.considerBlock hinv peer block

/-! ## Votes -/

/-- Some sub-block of the block is not in the own one. -/
def BlockchainManager.HasMissing (m : BlockchainManager) (block : CollectionBlock) : Prop :=
  (∃ entry ∈ block.transactions, entry.1 ∉ m.newBlock.transactions.keys) ∨
    ∃ entry ∈ block.creations, entry.1 ∉ m.newBlock.creations.keys

/-- A sub-block is counted or granted. -/
def IsVote : Effect → Prop
  | .transactionVote _ => True
  | .creationVote _ => True
  | _ => False

theorem not_isVote_of_reportViolation {m : BlockchainManager} {peer : PeerId} {ground : Violation}
    {effect : Effect} (hmem : effect ∈ (m.reportViolation peer ground).2) : ¬ IsVote effect := by
  rcases BlockchainManager.mem_reportViolation hmem with rfl | rfl <;> exact id

theorem record_ne_nil_iff {β : Type} (letIn : OrdMap Hash β → Hash → β → OrdMap Hash β)
    (threshold : UInt32) (admitted : OrdMap Hash β) (counter : OrdMap Hash UInt32)
    (proposals : OrdMap Hash β) :
    (Ballot.offerAll letIn threshold { admitted, counter } proposals).record ≠ [] ↔
      ∃ entry ∈ proposals, entry.1 ∉ admitted.keys := by
  rw [ne_eq, Ballot.record_offerAll_eq_iff letIn threshold { admitted, counter } proposals]
  push Not
  rfl

/-- A merged block is voted on exactly when something in it is missing. -/
theorem exists_vote_mergeBlock_iff (crypto : CryptoHelper) (m : BlockchainManager)
    (block : CollectionBlock) :
    (∃ effect ∈ (m.mergeBlock crypto block).2, IsVote effect) ↔ m.HasMissing block := by
  have hmap : ∀ {β : Type} (record : List (Vote Hash β)) (toEffect : Vote Hash β → Effect),
      (∀ vote, IsVote (toEffect vote)) →
        ((∃ effect ∈ record.map toEffect, IsVote effect) ↔ record ≠ []) := by
    intro β record toEffect hvote
    cases record with
    | nil => simp
    | cons vote rest =>
      exact iff_of_true ⟨toEffect vote, List.mem_cons_self .., hvote vote⟩ (List.cons_ne_nil _ _)
  show (∃ effect ∈ (m.offerTransactions block).record.map Effect.transactionVote ++
    (m.offerCreations block).record.map Effect.creationVote, IsVote effect) ↔ _
  unfold BlockchainManager.HasMissing
  rw [← record_ne_nil_iff admitTransaction m.cycleStateIntroduceBlock.threshold _
      m.cycleStateIntroduceBlock.transactionSubBlockCounter,
    ← record_ne_nil_iff (admitCreation (creationsLeft m.blockchain.getMiningState))
      m.cycleStateIntroduceBlock.threshold _ m.cycleStateIntroduceBlock.creationSubBlockCounter,
    ← hmap _ Effect.transactionVote fun _ => trivial, ← hmap _ Effect.creationVote fun _ => trivial]
  simp only [List.mem_append, or_and_right, exists_or]
  rfl

theorem merged_of_vote {m : BlockchainManager} (h : m.currentState = some .introduceBlock)
    {event : ManagerEvent} (hstays : event.StaysInState) {effect : Effect} (hvote : IsVote effect)
    (hmem : effect ∈ m.effects crypto event) :
    ∃ peer block, event.message = some (peer, block) ∧ m.Considers block ∧
      (m.judge crypto block).1 = true ∧
      effect ∈ ((m.judge crypto block).2.mergeBlock crypto block).2 := by
  cases event with
  | advance now => exact absurd hstays id
  | onCycle now creationSignature transactionSignature =>
    unfold BlockchainManager.effects BlockchainManager.act BlockchainManager.onCycle
      BlockchainManager.cycleIntroduceBlock at hmem
    dsimp only at hmem
    rw [h] at hmem
    dsimp only at hmem
    split_ifs at hmem
    · rw [List.mem_singleton.1 hmem] at hvote
      exact absurd hvote id
    · exact absurd hmem List.not_mem_nil
  | collectionBlockReceived peer block reply now =>
    cases reply with
    | true =>
      rcases m.effects_reply crypto h peer block now effect hmem with rfl | rfl <;>
        exact absurd hvote id
    | false =>
      obtain ⟨monitored, heffects, hmonitored⟩ := m.effects_received crypto h peer block now
      rw [heffects] at hmem
      rcases List.mem_append.1 hmem with hmem | hmem
      · refine ⟨peer, block, rfl, ?_⟩
        rcases BlockchainManager.considerBlock_cases crypto m peer block with
          ⟨-, heq⟩ | ⟨hc, htrue, -, heq⟩ | ⟨-, -, -, heq⟩ | ⟨-, -, heq⟩ <;> rw [heq] at hmem
        · exact absurd hmem List.not_mem_nil
        · exact ⟨hc, htrue, hmem⟩
        · exact absurd hmem List.not_mem_nil
        · exact absurd hvote (not_isVote_of_reportViolation hmem)
      · rcases hmonitored effect hmem with rfl | rfl <;> exact absurd hvote id
  | foundHash data => exact absurd hmem List.not_mem_nil
  | triggerTransaction receiver fraction => exact absurd hmem List.not_mem_nil

theorem transactionVote_mem_mergeBlock {m : BlockchainManager} {block : CollectionBlock}
    {vote : Vote Hash TransactionSubBlock} :
    Effect.transactionVote vote ∈ (m.mergeBlock crypto block).2 ↔
      vote ∈ (m.offerTransactions block).record := by
  unfold BlockchainManager.mergeBlock
  simp

theorem creationVote_mem_mergeBlock {m : BlockchainManager} {block : CollectionBlock}
    {vote : Vote Hash CreationSubBlock} :
    Effect.creationVote vote ∈ (m.mergeBlock crypto block).2 ↔
      vote ∈ (m.offerCreations block).record := by
  unfold BlockchainManager.mergeBlock
  simp

theorem reportViolation_not_mem_mergeBlock (crypto : CryptoHelper) (m : BlockchainManager)
    (block : CollectionBlock) (peer : PeerId) (ground : Violation) :
    Effect.reportViolation peer ground ∉ (m.mergeBlock crypto block).2 := by
  intro hmem
  rcases List.mem_append.1 hmem with hmem | hmem
  · obtain ⟨vote, -, heq⟩ := List.mem_map.1 hmem
    simp at heq
  · obtain ⟨vote, -, heq⟩ := List.mem_map.1 hmem
    simp at heq

/-! ## Respecting verdicts -/

/-- The sub-blocks of a received block count only if the block is valid, and its sender is
reported for it only if it is not. -/
def VerdictRespected (crypto : CryptoHelper) (m : BlockchainManager) (peer : PeerId)
    (block : CollectionBlock) (reply : Bool) (now : BlockchainTime) : Prop :=
  ((∃ effect ∈ m.effects crypto (.collectionBlockReceived peer block reply now), IsVote effect) →
      m.blockchain.Accepts crypto block) ∧
    (Effect.reportViolation peer .invalidBlock ∈
        m.effects crypto (.collectionBlockReceived peer block reply now) →
      ¬ m.blockchain.Accepts crypto block)

/-- Some sub-block is being counted, and the first block of the phase that claims this block's
hash is of the other kind: it is invalid and this one is valid, or it is valid and this one is
not, differs from the own block by its claim and has a sub-block the own block lacks. -/
def IntroducePhase.Misjudged (crypto : CryptoHelper) (phase : IntroducePhase)
    (block : CollectionBlock) (reply : Bool) : Prop :=
  reply = false ∧ block.header.blockUid = (phase.start crypto).newBlock.header.blockUid ∧
    ¬ (phase.state crypto).cycleStateIntroduceBlock.CountersEmpty ∧
    ∃ first, firstClaim (phase.start crypto).newBlock.header.blockUid
        block.header.genericHeader.blockHash phase.messages = some first ∧
      (¬ (phase.start crypto).blockchain.Accepts crypto first ∧
          (phase.start crypto).blockchain.Accepts crypto block ∨
        (phase.start crypto).blockchain.Accepts crypto first ∧
          ¬ (phase.start crypto).blockchain.Accepts crypto block ∧
          block.header.genericHeader.blockHash ≠
            (phase.state crypto).newBlock.header.genericHeader.blockHash ∧
          (phase.state crypto).HasMissing block)

/-- The effects that matter come from considering the block. -/
theorem verdictRespected_iff_considerBlock {m : BlockchainManager}
    (h : m.currentState = some .introduceBlock) (peer : PeerId) (block : CollectionBlock)
    (now : BlockchainTime) :
    VerdictRespected crypto m peer block false now ↔
      ((∃ effect ∈ (m.considerBlock crypto peer block).2, IsVote effect) →
          m.blockchain.Accepts crypto block) ∧
        (Effect.reportViolation peer .invalidBlock ∈ (m.considerBlock crypto peer block).2 →
          ¬ m.blockchain.Accepts crypto block) := by
  obtain ⟨monitored, heffects, hmonitored⟩ := m.effects_received crypto h peer block now
  have hvote : (∃ effect ∈ m.effects crypto (.collectionBlockReceived peer block false now),
      IsVote effect) ↔ ∃ effect ∈ (m.considerBlock crypto peer block).2, IsVote effect := by
    rw [heffects]
    constructor
    · rintro ⟨effect, hmem, hvote⟩
      rcases List.mem_append.1 hmem with hmem | hmem
      · exact ⟨effect, hmem, hvote⟩
      · rcases hmonitored effect hmem with rfl | rfl <;> exact absurd hvote id
    · rintro ⟨effect, hmem, hvote⟩
      exact ⟨effect, List.mem_append_left _ hmem, hvote⟩
  have hreport : Effect.reportViolation peer .invalidBlock ∈
      m.effects crypto (.collectionBlockReceived peer block false now) ↔
        Effect.reportViolation peer .invalidBlock ∈ (m.considerBlock crypto peer block).2 := by
    rw [heffects, List.mem_append]
    refine or_iff_left fun hmem => ?_
    rcases hmonitored _ hmem with heq | heq <;> simp at heq
  unfold VerdictRespected
  rw [hvote, hreport]

theorem verdictRespected_of_reply {m : BlockchainManager}
    (h : m.currentState = some .introduceBlock) (peer : PeerId) (block : CollectionBlock)
    (now : BlockchainTime) : VerdictRespected crypto m peer block true now := by
  have hnone := m.effects_reply crypto h peer block now
  constructor
  · rintro ⟨effect, hmem, hvote⟩
    rcases hnone effect hmem with rfl | rfl <;> exact absurd hvote id
  · intro hmem
    rcases hnone _ hmem with heq | heq <;> simp at heq

section Judged

variable (crypto : CryptoHelper) (phase : IntroducePhase) (block : CollectionBlock)

/-- The block whose verdict is used: the first with the same claim, or the block itself. -/
def IntroducePhase.judgedBlock : CollectionBlock :=
  (firstClaim (phase.start crypto).newBlock.header.blockUid block.header.genericHeader.blockHash
    phase.messages).getD block

theorem IntroducePhase.judge_eq_true_iff :
    ((phase.state crypto).judge crypto block).1 = true ↔
      (phase.start crypto).blockchain.Accepts crypto (phase.judgedBlock crypto block) := by
  obtain ⟨hinv, hrecorded⟩ := phase.recorded crypto
  rw [hrecorded.judge_fst hinv]
  rfl

/-- A block that is looked at is misjudged when the verdict used for it is not its own and makes
a difference. -/
theorem IntroducePhase.misjudged_iff_of_considers (hc : (phase.state crypto).Considers block) :
    phase.Misjudged crypto block false ↔
      ¬ (phase.start crypto).blockchain.Accepts crypto (phase.judgedBlock crypto block) ∧
          (phase.start crypto).blockchain.Accepts crypto block ∨
        (phase.start crypto).blockchain.Accepts crypto (phase.judgedBlock crypto block) ∧
          ¬ (phase.start crypto).blockchain.Accepts crypto block ∧
          block.header.genericHeader.blockHash ≠
            (phase.state crypto).newBlock.header.genericHeader.blockHash ∧
          (phase.state crypto).HasMissing block := by
  obtain ⟨hinv, hrecorded⟩ := phase.recorded crypto
  unfold Misjudged judgedBlock
  cases hfirst : firstClaim (phase.start crypto).newBlock.header.blockUid
      block.header.genericHeader.blockHash phase.messages with
  | none =>
    -- The verdict is the block's own.
    rw [Option.getD_none]
    constructor
    · rintro ⟨-, -, -, first, hnone, -⟩
      exact absurd hnone (by simp)
    · rintro (⟨hno, hyes⟩ | ⟨hyes, hno, -⟩) <;> exact absurd hyes hno
  | some first =>
    have hseen : block.header.genericHeader.blockHash ∈
        (phase.state crypto).cycleStateIntroduceBlock.processedBlocks.keys := by
      rw [← hrecorded.isSome_firstClaim_iff, hfirst]
      rfl
    rw [Option.getD_some]
    constructor
    · rintro ⟨-, -, -, first', heq, hkind⟩
      cases heq
      exact hkind
    · intro hkind
      exact ⟨rfl, hc.1.trans hinv.blockUid, hc.2 hseen, first, rfl, hkind⟩

theorem IntroducePhase.not_misjudged_of_not_considers
    (hnot : ¬ (phase.state crypto).Considers block) : ¬ phase.Misjudged crypto block false := by
  rintro ⟨-, huid, hcounters, -⟩
  exact hnot ⟨huid.trans (phase.recorded crypto).1.blockUid.symm, fun _ => hcounters⟩

end Judged

/-- **When the verdict used is the verdict on the block itself**: exactly when the block is not
misjudged, whatever has been received before in the phase. -/
theorem IntroducePhase.verdictRespected_iff_not_misjudged (crypto : CryptoHelper)
    (phase : IntroducePhase) (peer : PeerId) (block : CollectionBlock) (reply : Bool)
    (now : BlockchainTime) :
    VerdictRespected crypto (phase.state crypto) peer block reply now ↔
      ¬ phase.Misjudged crypto block reply := by
  obtain ⟨hinv, -⟩ := phase.recorded crypto
  cases reply with
  | true =>
    exact iff_of_true (verdictRespected_of_reply hinv.currentState peer block now)
      fun h => absurd h.1 (by simp)
  | false =>
    rw [verdictRespected_iff_considerBlock hinv.currentState, hinv.blockchain.accepts]
    have hverdict := phase.judge_eq_true_iff crypto block
    rcases BlockchainManager.considerBlock_cases crypto (phase.state crypto) peer block with
      ⟨hnot, heq⟩ | ⟨hc, htrue, hown, heq⟩ | ⟨hc, htrue, hown, heq⟩ | ⟨hc, hfalse, heq⟩ <;> rw [heq]
    · exact iff_of_true (by simp) (phase.not_misjudged_of_not_considers crypto block hnot)
    · -- Merged: the verdict used was positive, so only a positive verdict of its own is right.
      have hreport := reportViolation_not_mem_mergeBlock crypto
        ((phase.state crypto).judge crypto block).2 block peer .invalidBlock
      have hmissing : ((phase.state crypto).judge crypto block).2.HasMissing block ↔
          (phase.state crypto).HasMissing block := Iff.rfl
      rw [exists_vote_mergeBlock_iff, hmissing, phase.misjudged_iff_of_considers crypto block hc]
      have hused := hverdict.1 htrue
      by_cases hacc : (phase.start crypto).blockchain.Accepts crypto block
      · simp [hacc, hused, hreport]
      · simp [hacc, hused, hreport, hown]
    · -- The own block again: nothing happens.
      refine iff_of_true (by simp) ?_
      rw [phase.misjudged_iff_of_considers crypto block hc]
      have hused := hverdict.1 htrue
      simp [hused, hown]
    · -- Reported: the verdict used was negative.
      have hvote : ¬ ∃ effect ∈ (((phase.state crypto).judge crypto block).2.reportViolation peer
          .invalidBlock).2, IsVote effect := by
        rintro ⟨effect, hmem, hvote⟩
        exact not_isVote_of_reportViolation hmem hvote
      have hreport : Effect.reportViolation peer .invalidBlock ∈
          (((phase.state crypto).judge crypto block).2.reportViolation peer .invalidBlock).2 :=
        List.mem_cons_self ..
      have hused : ¬ (phase.start crypto).blockchain.Accepts crypto
          (phase.judgedBlock crypto block) := by
        rw [← hverdict, hfalse]
        simp
      rw [phase.misjudged_iff_of_considers crypto block hc]
      simp only [hvote, hreport, hused, false_imp_iff, true_imp_iff, not_false_eq_true, true_and,
        false_and, or_false]

namespace Sample

/-- A node that is none of the others, on the chain on which `keyA` has a coin. -/
def node : BlockchainManager where
  ourPublicKey := keyC
  blockchain := minedChain

/-- Ten propagations: from now on a sub-block has to be counted twice. -/
def tenPropagations : List ManagerEvent := List.replicate 10 (.onCycle (2 ^ 40) [] [])

/-- A valid block with a payment of `keyA`. -/
def honestBlock : CollectionBlock := block (.collection mining) [paymentOfA] []

/-- A block that claims the hash of the valid one and holds another payment. -/
def impostor : CollectionBlock :=
  { honestBlock with
    transactions := storeTransaction ∅ (payment (.collection mining) keyA keyB 999999) }

/-- Peer `1` sends the valid block late in the phase. -/
def latePhase : IntroducePhase where
  before := node
  enteredAt := 0
  events := tenPropagations ++ [.collectionBlockReceived [1] honestBlock false 0]
  stays := by decide

end Sample

/-- The payment in the impostor is counted although the impostor is invalid. -/
theorem impostor_is_counted :
    ¬ Sample.minedChain.Accepts .sample Sample.impostor ∧
      ¬ ∀ (phase : IntroducePhase) (peer : PeerId) (block : CollectionBlock) (reply : Bool)
        (now : BlockchainTime),
        VerdictRespected .sample (phase.state .sample) peer block reply now := by
  refine ⟨by decide +kernel, ?_⟩
  intro h
  have hvote : Effect.transactionVote (.counted
      (Sample.payment (.collection Sample.mining) Sample.keyA Sample.keyB
        999999).header.genericHeader.blockHash) ∈
      (Sample.latePhase.state .sample).effects .sample
        (.collectionBlockReceived [2] Sample.impostor false 0) := by
    decide +kernel
  have haccepts := (h Sample.latePhase [2] Sample.impostor false 0).1 ⟨_, hvote, trivial⟩
  exact absurd haccepts (by decide +kernel)

end SwabianCoin
