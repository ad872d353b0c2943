import SwabianCoin.Negotiation
import SwabianCoin.Overdraft

/-!
# What a node introduces

A node never validates its own block: neither what it has collected, nor what becomes of it when
valid blocks of others are merged in, nor what it finally adds to its chain. Most of what
`validateBlock` asks for survives anyway, because sub-blocks are validated one by one and the
merge respects the limits. What does not survive is what concerns the whole: that no wallet is
overdrawn, that data values differ, that creations are in the order of their hashes. So the
conditions here are about unions: `OwnBlockSound` for what has been collected, `MergesSoundly` for
the own block and a received one.
-/

namespace SwabianCoin

open Machine

variable {crypto : CryptoHelper}

/-! ## The order of creations -/

theorem creationsSorted_iff {last : Hash} {creations : List CreationSubBlock} :
    creationsSorted last creations = true ↔
      (last :: creations.map fun creation => creation.header.genericHeader.blockHash).Pairwise
        (· ≤ ·) := by
  rw [← List.isChain_iff_pairwise]
  induction creations generalizing last with
  | nil => simp [creationsSorted]
  | cons creation rest ih =>
    rw [List.map_cons, List.isChain_cons_cons, ← ih, creationsSorted, Bool.and_eq_true,
      Bool.not_eq_true', decide_eq_false_iff_not, not_lt]

theorem creationsSorted_of_sublist {creations creations' : List CreationSubBlock}
    (h : creations'.Sublist creations) (hsorted : creationsSorted 0 creations = true) :
    creationsSorted 0 creations' = true := by
  rw [creationsSorted_iff] at hsorted ⊢
  exact hsorted.sublist ((h.map _).cons_cons 0)

/-- Creations stored under their own hashes are in order. -/
theorem creationsSorted_of_keys {creations : OrdMap Hash CreationSubBlock}
    (h : ∀ entry ∈ creations, entry.1 = entry.2.header.genericHeader.blockHash) :
    creationsSorted 0 creations.values = true := by
  rw [creationsSorted_iff, OrdMap.map_key_values h]
  refine List.pairwise_cons.2 ⟨fun hash _ => Fin.zero_le hash, ?_⟩
  exact creations.keys_sorted.imp le_of_lt

/-! ## Conditions -/

/-- Under the same key both maps have the same. -/
def Agree {β : Type} (own received : OrdMap Hash β) : Prop :=
  ∀ entry ∈ own, ∀ other ∈ received, entry.1 = other.1 → entry = other

instance {β : Type} [DecidableEq β] (own received : OrdMap Hash β) :
    Decidable (Agree own received) :=
  inferInstanceAs (Decidable (∀ entry ∈ own, _))

namespace BlockchainManager

variable (crypto) (m : BlockchainManager)

/-- The collected sub-blocks do not overdraw a wallet, their data values differ, and there is an
id left for the block. -/
def OwnBlockSound : Prop :=
  m.blockchain.getNewestBlockId + 1 ≠ 0 ∧
    (m.newBlock.creations.values.map CreationSubBlock.dataValue).Nodup ∧
    m.blockchain.Covers m.newBlock

instance : Decidable m.OwnBlockSound := inferInstanceAs (Decidable (_ ∧ _))

/-- The own block with all sub-blocks of a received one. -/
def unionWith (block : CollectionBlock) : CollectionBlock :=
  { m.newBlock with
    transactions := m.newBlock.transactions.union block.transactions
    creations := m.newBlock.creations.union block.creations }

/-- Every sub-block of the received block that is missing has the votes it needs, and the union
respects the limits and has no data value twice. -/
def TakesAll (block : CollectionBlock) : Prop :=
  (∀ entry ∈ block.transactions, entry.1 ∉ m.newBlock.transactions.keys →
    m.cycleStateIntroduceBlock.threshold ≤
      m.cycleStateIntroduceBlock.transactionSubBlockCounter.getD entry.1 0 + 1) ∧
  (∀ entry ∈ block.creations, entry.1 ∉ m.newBlock.creations.keys →
    m.cycleStateIntroduceBlock.threshold ≤
      m.cycleStateIntroduceBlock.creationSubBlockCounter.getD entry.1 0 + 1) ∧
  (m.unionWith block).transactions.size ≤ maxNumTransactions.toNat ∧
  (m.unionWith block).creations.size ≤ creationsLeft m.blockchain.getMiningState ∧
  ((m.unionWith block).creations.values.map CreationSubBlock.dataValue).Nodup

instance (block : CollectionBlock) : Decidable (m.TakesAll block) :=
  inferInstanceAs (Decidable (_ ∧ _))

/-- The own and a received block fit together: no key stands for two sub-blocks, the creations of
the union are in order, and no wallet is overdrawn by the union. If only a part of it gets in,
every payer must have what he pays in the union altogether. -/
def MergesSoundly (block : CollectionBlock) : Prop :=
  Agree m.newBlock.transactions block.transactions ∧
  Agree m.newBlock.creations block.creations ∧
  creationsSorted 0 (m.unionWith block).creations.values = true ∧
  (m.blockchain.Affords (m.unionWith block) ∨
    m.TakesAll block ∧ m.blockchain.Covers (m.unionWith block))

instance (block : CollectionBlock) : Decidable (m.MergesSoundly block) :=
  inferInstanceAs (Decidable (_ ∧ _))

instance (block : CollectionBlock) : Decidable (m.Considers block) :=
  inferInstanceAs (Decidable (_ ∧ _))

/-- What is asked of a received block: a positive verdict on record for its claimed hash is right
for it, and if it is valid it fits together with the own one. -/
def ReceivesSoundly (block : CollectionBlock) : Prop :=
  m.Considers block →
    block.header.genericHeader.blockHash ≠ m.newBlock.header.genericHeader.blockHash →
    (m.cycleStateIntroduceBlock.processedBlocks.find? block.header.genericHeader.blockHash =
        some true → m.blockchain.Accepts crypto block) ∧
      (m.blockchain.Accepts crypto block → m.MergesSoundly block)

instance (block : CollectionBlock) : Decidable (m.ReceivesSoundly crypto block) :=
  inferInstanceAs (Decidable (_ → _))

/-- What is asked of an event: something only when the node starts a negotiation or receives a
block during one. -/
def ActsSoundly : ManagerEvent → Prop
  | .advance _ => m.nextState = .introduceBlock → m.OwnBlockSound
  | .collectionBlockReceived _ block reply _ =>
    reply = false → m.currentState = some .introduceBlock → m.ReceivesSoundly crypto block
  | _ => True

instance : ∀ event, Decidable (m.ActsSoundly crypto event)
  | .advance _ => inferInstanceAs (Decidable (_ → _))
  | .collectionBlockReceived _ _ _ _ => inferInstanceAs (Decidable (_ → _))
  | .onCycle _ _ _ => inferInstanceAs (Decidable True)
  | .foundHash _ => inferInstanceAs (Decidable True)
  | .triggerTransaction _ _ => inferInstanceAs (Decidable True)

end BlockchainManager

/-- The block an effect introduces. -/
def Effect.introduced : Effect → Option CollectionBlock
  | .propagateBlock block => some block
  | .addBlock block => some block
  | _ => none

/-- Every block that an event sends to the peers or adds to the chain would be accepted on the
chain as it is. -/
def BlockchainManager.IntroducesValid (crypto : CryptoHelper) (m : BlockchainManager)
    (event : ManagerEvent) : Prop :=
  ∀ effect ∈ m.effects crypto event, ∀ block ∈ effect.introduced, m.blockchain.Accepts crypto block

instance (m : BlockchainManager) (event : ManagerEvent) :
    Decidable (m.IntroducesValid crypto event) :=
  inferInstanceAs (Decidable (∀ effect ∈ m.effects crypto event, _))

/-! ## Merging -/

section Union

variable {β : Type} {own received : OrdMap Hash β}

theorem Agree.mem_union (h : Agree own received) {entry : Hash × β} :
    entry ∈ own.union received ↔ entry ∈ own ∨ entry ∈ received := by
  rw [OrdMap.mem_union]
  refine ⟨fun hentry => hentry.imp id And.left, fun hentry => ?_⟩
  by_cases hkey : entry.1 ∈ own.keys
  · obtain ⟨value, hvalue⟩ := OrdMap.mem_keys.1 hkey
    rcases hentry with hown | hreceived
    · exact Or.inl hown
    · rw [← h (entry.1, value) hvalue entry hreceived rfl]
      exact Or.inl hvalue
  · exact hentry.imp id fun hreceived => ⟨hreceived, hkey⟩

theorem Agree.uniqueKeys (h : Agree own received) :
    UniqueKeys ({entry | entry ∈ own} ∪ {entry | entry ∈ received}) := by
  rintro e (he | he) f (hf | hf) heq
  · exact OrdMap.eq_of_mem_of_fst_eq he hf heq
  · exact h e he f hf heq
  · exact (h f hf e he heq.symm).symm
  · exact OrdMap.eq_of_mem_of_fst_eq he hf heq

/-- **A vote on the sub-blocks of a received block.** What gets in is part of the union and within
the limit, with one entry for each group; and it is the whole union if everything has the votes it
needs and the union is within the limit and has one entry for each group itself. -/
theorem Agree.offerAll {δ : Type} {letIn : OrdMap Hash β → Hash → β → OrdMap Hash β} {n : Nat}
    {group : Hash × β → δ} (hletIn : AdmitsSmallest group n letIn) (hagree : Agree own received)
    (hgroups : ∀ e ∈ own, ∀ f ∈ own, group e = group f → e = f) (hsize : own.size ≤ n)
    (threshold : UInt32) (counter : OrdMap Hash UInt32) :
    (∀ e ∈ (Ballot.offerAll letIn threshold { admitted := own, counter } received).admitted,
        e ∈ own.union received) ∧
      (Ballot.offerAll letIn threshold { admitted := own, counter } received).admitted.size ≤ n ∧
      (∀ e ∈ (Ballot.offerAll letIn threshold { admitted := own, counter } received).admitted,
        ∀ f ∈ (Ballot.offerAll letIn threshold { admitted := own, counter } received).admitted,
          group e = group f → e = f) ∧
      ((∀ e ∈ received, e.1 ∉ own.keys → threshold ≤ counter.getD e.1 0 + 1) →
        (own.union received).size ≤ n →
        (∀ e ∈ own.union received, ∀ f ∈ own.union received, group e = group f → e = f) →
        (Ballot.offerAll letIn threshold { admitted := own, counter } received).admitted =
          own.union received) := by
  have hkeys := hagree.uniqueKeys
  have hown : IsSmallest n (Lowest group {entry | entry ∈ own}) own := by
    rw [lowest_eq_self]
    · exact IsSmallest.self own hsize
    · exact hgroups
  obtain ⟨V, hownV, hVunion, hsmallest, hcounts⟩ := Ballot.offerAll_isSmallest
    { admitted := own, counter } threshold hletIn hkeys hown
  have hkeysV : UniqueKeys V := fun e he f hf => hkeys e (hVunion he) f (hVunion hf)
  refine ⟨fun e he => hagree.mem_union.2 (hVunion (hsmallest.mem e he).1), hsmallest.size_le,
    fun e he f hf => eq_of_lowest_of_group_eq hkeysV (hsmallest.mem e he) (hsmallest.mem f hf), ?_⟩
  intro hvotes hfits hdistinct
  have hV : V = {entry | entry ∈ own.union received} := by
    ext e
    refine ⟨fun he => hagree.mem_union.2 (hVunion he), fun he => ?_⟩
    rcases OrdMap.mem_union.1 he with hin | ⟨hin, hout⟩
    · exact hownV hin
    · exact hcounts e hin (hvotes e hin hout)
  rw [hV, lowest_eq_self] at hsmallest
  · exact hsmallest.unique (IsSmallest.self _ hfits)
  · exact hdistinct

end Union

/-- The differences do not depend on the header. -/
theorem Blockchain.Covers.congr {bc : Blockchain} {block block' : CollectionBlock}
    (h : bc.Covers block) (htransactions : block'.transactions = block.transactions)
    (hcreations : block'.creations = block.creations) : bc.Covers block' := by
  have heq : walletDiffs block' = walletDiffs block := by
    rw [walletDiffs, htransactions, hcreations, walletDiffs]
  intro diff hdiff
  rw [heq] at hdiff
  exact h diff hdiff

theorem dataValues_nodup_iff {creations : OrdMap Hash CreationSubBlock} :
    (creations.values.map CreationSubBlock.dataValue).Nodup ↔
      ∀ e ∈ creations, ∀ f ∈ creations, e.2.dataValue = f.2.dataValue → e = f := by
  rw [OrdMap.values, List.map_map]
  refine ⟨fun h e he f hf => List.inj_on_of_nodup_map h he hf, fun h => ?_⟩
  exact List.Nodup.map_on h (List.Nodup.of_map _ creations.keys_nodup)

/-- **Merging a valid block into a valid block**, if the two fit together. -/
theorem BlockchainManager.accepts_mergeBlock {m : BlockchainManager} {block : CollectionBlock}
    (hown : m.blockchain.Accepts crypto m.newBlock) (hblock : m.blockchain.Accepts crypto block)
    (hfit : m.MergesSoundly block) :
    m.blockchain.Accepts crypto (m.mergeBlock crypto block).1.newBlock := by
  obtain ⟨hagreeT, hagreeC, hsorted, hbalances⟩ := hfit
  obtain ⟨newest, hn, ho⟩ := hown.contents
  obtain ⟨newest', hn', hb⟩ := hblock.contents
  rw [hn] at hn'
  cases hn'
  have hgroups := dataValues_nodup_iff.1 ho.dataValues
  obtain ⟨hmemT, hsizeT, -, hallT⟩ := hagreeT.offerAll admitsSmallest_admitTransaction
    (fun _ he _ hf => OrdMap.eq_of_mem_of_fst_eq he hf) ho.numTransactions
    m.cycleStateIntroduceBlock.threshold m.cycleStateIntroduceBlock.transactionSubBlockCounter
  obtain ⟨hmemC, hsizeC, hdistinctC, hallC⟩ := hagreeC.offerAll
    (admitsSmallest_admitCreation (creationsLeft m.blockchain.getMiningState)) hgroups
    ho.numCreations m.cycleStateIntroduceBlock.threshold
    m.cycleStateIntroduceBlock.creationSubBlockCounter
  refine Blockchain.accepts_iff.2 ⟨⟨newest, hn, ?_⟩, ?_⟩
  · refine ⟨ho.uid_ne_zero, ho.uid, ho.blockType, verifyHash_refillHash crypto _, ?_, ?_, ?_,
      hsizeC, hsizeT, ho.previous, dataValues_nodup_iff.2 hdistinctC⟩
    · intro transaction hmem
      obtain ⟨key, hentry⟩ := OrdMap.mem_values.1 hmem
      rcases hagreeT.mem_union.1 (hmemT _ hentry) with hin | hin
      · exact ho.transactions transaction (OrdMap.mem_values.2 ⟨key, hin⟩)
      · exact hb.transactions transaction (OrdMap.mem_values.2 ⟨key, hin⟩)
    · intro creation hmem
      obtain ⟨key, hentry⟩ := OrdMap.mem_values.1 hmem
      rcases hagreeC.mem_union.1 (hmemC _ hentry) with hin | hin
      · exact ho.creations creation (OrdMap.mem_values.2 ⟨key, hin⟩)
      · exact hb.creations creation (OrdMap.mem_values.2 ⟨key, hin⟩)
    · exact creationsSorted_of_sublist ((OrdMap.entries_sublist hmemC).map Prod.snd) hsorted
  -- Either any part of both blocks can be paid for, or all of both is let in.
  · rcases hbalances with haffords | ⟨⟨hvotesT, hvotesC, hfitsT, hfitsC, hvalues⟩, hcovers⟩
    · exact haffords.covers hmemT hmemC
    · exact hcovers.congr
        (hallT hvotesT hfitsT fun _ he _ hf => OrdMap.eq_of_mem_of_fst_eq he hf)
        (hallC hvotesC hfitsC (dataValues_nodup_iff.1 hvalues))

/-! ## Collecting -/

/-- Sub-blocks that have been validated one by one: each is valid on the chain, creations are
stored under their own hashes, and the limits are respected. -/
structure Collected (crypto : CryptoHelper) (bc : Blockchain) (block : CollectionBlock) : Prop where
  blockType : block.header.genericHeader.blockType = .CollectionBlock
  transactions : ∀ transaction ∈ block.transactions.values,
    bc.validateTransaction crypto transaction = true
  creations : ∀ creation ∈ block.creations.values, bc.validateCreation crypto creation = true
  creationKeys : ∀ entry ∈ block.creations, entry.1 = entry.2.header.genericHeader.blockHash
  numTransactions : block.transactions.size ≤ maxNumTransactions.toNat
  numCreations : block.creations.size ≤ creationsLeft bc.getMiningState

section EraseIfLarger

variable {β : Type} {limit : Nat} {map : OrdMap Hash β}

theorem mem_of_mem_eraseIfLarger {entry : Hash × β} (h : entry ∈ eraseIfLarger limit map) :
    entry ∈ map := by
  unfold eraseIfLarger at h
  split_ifs at h
  · exact OrdMap.mem_eraseLast_sub h
  · exact h

theorem size_eraseIfLarger_le (h : map.size ≤ limit + 1) :
    (eraseIfLarger limit map).size ≤ limit := by
  unfold eraseIfLarger
  split_ifs with hlarge
  · rw [OrdMap.size_eraseLast]
    omega
  · omega

end EraseIfLarger

namespace Collected

variable {bc : Blockchain} {block : CollectionBlock}

theorem empty (crypto : CryptoHelper) (bc : Blockchain) : Collected crypto bc {} :=
  ⟨rfl, fun _ h => absurd h List.not_mem_nil, fun _ h => absurd h List.not_mem_nil,
    fun _ h => absurd h List.not_mem_nil, Nat.zero_le _, Nat.zero_le _⟩

theorem insertCreation (h : Collected crypto bc block) {subBlock : CreationSubBlock}
    (hvalid : bc.validateCreation crypto subBlock = true) :
    Collected crypto bc
      { block with
        creations := eraseIfLarger (creationsLeft bc.getMiningState)
          (storeCreation block.creations subBlock) } where
  blockType := h.blockType
  transactions := h.transactions
  creations creation hmem := by
    obtain ⟨key, hentry⟩ := OrdMap.mem_values.1 hmem
    rcases OrdMap.mem_insert.1 (mem_of_mem_eraseIfLarger hentry) with heq | ⟨-, hold⟩
    · cases heq
      exact hvalid
    · exact h.creations creation (OrdMap.mem_values.2 ⟨key, hold⟩)
  creationKeys entry hentry := by
    rcases OrdMap.mem_insert.1 (mem_of_mem_eraseIfLarger hentry) with rfl | ⟨-, hold⟩
    · rfl
    · exact h.creationKeys entry hold
  numTransactions := h.numTransactions
  numCreations := by
    refine size_eraseIfLarger_le ((OrdMap.size_insert_le _ _ _).trans ?_)
    exact Nat.succ_le_succ h.numCreations

theorem insertTransaction (h : Collected crypto bc block) {subBlock : TransactionSubBlock}
    (hvalid : bc.validateTransaction crypto subBlock = true) :
    Collected crypto bc
      { block with
        transactions := eraseIfLarger maxNumTransactions.toNat
          (storeTransaction block.transactions subBlock) } where
  blockType := h.blockType
  transactions transaction hmem := by
    obtain ⟨key, hentry⟩ := OrdMap.mem_values.1 hmem
    rcases OrdMap.mem_insert.1 (mem_of_mem_eraseIfLarger hentry) with heq | ⟨-, hold⟩
    · cases heq
      exact hvalid
    · exact h.transactions transaction (OrdMap.mem_values.2 ⟨key, hold⟩)
  creations := h.creations
  creationKeys := h.creationKeys
  numTransactions := by
    refine size_eraseIfLarger_le ((OrdMap.size_insert_le _ _ _).trans ?_)
    exact Nat.succ_le_succ h.numTransactions
  numCreations := h.numCreations

/-- **The own block at the start of a negotiation.** -/
theorem accepts_placeBlock (h : Collected crypto bc block) {newest : Block}
    (hn : bc.getNewestBlock = some newest)
    (huid : newest.header.blockUid = bc.getNewestBlockId) (hid : bc.getNewestBlockId + 1 ≠ 0)
    (hvalues : (block.creations.values.map CreationSubBlock.dataValue).Nodup)
    (hcovers : bc.Covers block) :
    bc.Accepts crypto (placeBlock crypto bc.getNewestBlockId newest block) := by
  refine Blockchain.accepts_iff.2 ⟨⟨newest, hn, ?_⟩, hcovers.congr rfl rfl⟩
  have htransactions := h.transactions
  have hcreations := h.creations
  unfold Blockchain.validateTransaction at htransactions
  unfold Blockchain.validateCreation at hcreations
  rw [hn] at htransactions hcreations
  refine ⟨hid, ?_, h.blockType, verifyHash_refillHash crypto _, htransactions, hcreations,
    creationsSorted_of_keys h.creationKeys, h.numCreations, h.numTransactions, rfl, hvalues⟩
  rw [huid]
  rfl

end Collected

/-! ## Events that introduce nothing -/

namespace BlockchainManager

variable {m : BlockchainManager}

theorem introduced_reportViolation (m : BlockchainManager) (peer : PeerId) (ground : Violation) :
    ∀ effect ∈ (m.reportViolation peer ground).2, effect.introduced = none := by
  intro effect hmem
  rcases mem_reportViolation hmem with rfl | rfl <;> rfl

theorem introduced_monitorMessage (m : BlockchainManager) (peer : PeerId) (reply : Bool)
    (now : BlockchainTime) :
    ∀ effect ∈ (m.monitorMessage peer reply now).2, effect.introduced = none := by
  intro effect hmem
  unfold monitorMessage at hmem
  dsimp only at hmem
  split_ifs at hmem
  · exact absurd hmem List.not_mem_nil
  · exact introduced_reportViolation _ peer .tooFast effect hmem
  · exact absurd hmem List.not_mem_nil

theorem introduced_mergeBlock (crypto : CryptoHelper) (m : BlockchainManager)
    (block : CollectionBlock) :
    ∀ effect ∈ (m.mergeBlock crypto block).2, effect.introduced = none := by
  intro effect hmem
  rcases List.mem_append.1 hmem with hmem | hmem
  · obtain ⟨vote, -, rfl⟩ := List.mem_map.1 hmem
    rfl
  · obtain ⟨vote, -, rfl⟩ := List.mem_map.1 hmem
    rfl

theorem introduced_considerBlock (crypto : CryptoHelper) (m : BlockchainManager) (peer : PeerId)
    (block : CollectionBlock) :
    ∀ effect ∈ (m.considerBlock crypto peer block).2, effect.introduced = none := by
  intro effect hmem
  rcases considerBlock_cases crypto m peer block with
    ⟨-, heq⟩ | ⟨-, -, -, heq⟩ | ⟨-, -, -, heq⟩ | ⟨-, -, heq⟩ <;> rw [heq] at hmem
  · exact absurd hmem List.not_mem_nil
  · exact introduced_mergeBlock crypto _ block effect hmem
  · exact absurd hmem List.not_mem_nil
  · exact introduced_reportViolation _ peer .invalidBlock effect hmem

theorem introduced_received (crypto : CryptoHelper) (m : BlockchainManager) (peer : PeerId)
    (block : CollectionBlock) (reply : Bool) (now : BlockchainTime) :
    ∀ effect ∈ (m.collectionBlockReceivedCallback crypto peer block reply now).2,
      effect.introduced = none := by
  intro effect hmem
  unfold collectionBlockReceivedCallback at hmem
  rcases List.mem_append.1 hmem with hmem | hmem
  · split at hmem
    · unfold blockReceivedIntroduceBlock at hmem
      split_ifs at hmem
      · exact introduced_reportViolation m peer .unexpectedReply effect hmem
      · exact introduced_considerBlock crypto m peer block effect hmem
    · exact absurd hmem List.not_mem_nil
  · exact introduced_monitorMessage _ peer reply now effect hmem

/-! ## Moving on -/

theorem act_advance_start (crypto : CryptoHelper) (now : BlockchainTime)
    (h : m.currentState = none ∨ m.currentState = some .collect) :
    m.nextState = .introduceBlock ∧
      m.act crypto (.advance now) = m.enterState crypto .introduceBlock now := by
  rcases h with h | h <;> simp [act, setState, nextState, exitState, h]

theorem act_advance_introduceBlock (crypto : CryptoHelper) (now : BlockchainTime)
    (h : m.currentState = some .introduceBlock) :
    (m.nextState = .collect ∨ m.nextState = .introduceBaseline) ∧
      m.act crypto (.advance now) =
        (((m.exitIntroduceBlock crypto).1.enterState crypto m.nextState now).1,
          .addBlock (refillHash crypto m.newBlock) ::
            ((m.exitIntroduceBlock crypto).1.enterState crypto m.nextState now).2) := by
  have hnext : m.nextState = .collect ∨ m.nextState = .introduceBaseline := by
    unfold nextState
    rw [h]
    dsimp only
    split_ifs
    · exact Or.inr rfl
    · exact Or.inl rfl
  have hne : m.currentState ≠ some m.nextState := by
    rw [h]
    rcases hnext with heq | heq <;> simp [heq]
  refine ⟨hnext, ?_⟩
  simp only [act, setState, exitState]
  rw [if_neg hne, h]
  rfl

theorem act_advance_introduceBaseline (crypto : CryptoHelper) (now : BlockchainTime)
    (h : m.currentState = some .introduceBaseline) :
    m.act crypto (.advance now) = m.enterState crypto .collect now := by
  simp [act, setState, nextState, exitState, h]

theorem exitIntroduceBlock_blockchain (crypto : CryptoHelper) (m : BlockchainManager) :
    (m.exitIntroduceBlock crypto).1.blockchain =
      m.blockchain.addBlock crypto (refillHash crypto m.newBlock) := by
  simp only [exitIntroduceBlock]
  split_ifs <;> rfl

end BlockchainManager

/-! ## Runs -/

/-- The own block of a node in order: sub-blocks that are valid one by one while it collects, a
valid block while it negotiates. -/
structure NodeInv (crypto : CryptoHelper) (m : BlockchainManager) : Prop where
  tip : TipOk m.blockchain
  collected : m.currentState = none ∨ m.currentState = some .collect →
    Collected crypto m.blockchain m.newBlock
  introduced : m.currentState = some .introduceBlock → m.blockchain.Accepts crypto m.newBlock

namespace NodeInv

variable {m m' : BlockchainManager}

theorem sameNegotiation (h : NodeInv crypto m) (hs : SameNegotiation m m') : NodeInv crypto m' := by
  obtain ⟨hchain, hnew, -, hstate⟩ := hs
  constructor
  · rw [hchain]
    exact h.tip
  · rw [hchain, hnew, hstate]
    exact h.collected
  · rw [hchain, hnew, hstate]
    exact h.introduced

theorem considerBlock (h : NodeInv crypto m) (hstate : m.currentState = some .introduceBlock)
    {block : CollectionBlock} (hsound : m.ReceivesSoundly crypto block) (peer : PeerId) :
    NodeInv crypto (m.considerBlock crypto peer block).1 := by
  have hsame := BlockchainManager.judge_sameBalances crypto m block
  have hown := h.introduced hstate
  have hjudged : NodeInv crypto (m.judge crypto block).2 :=
    ⟨h.tip.sameBalances hsame, by simp [hstate], fun _ => hsame.accepts.2 hown⟩
  rcases BlockchainManager.considerBlock_cases crypto m peer block with
    ⟨-, heq⟩ | ⟨hc, htrue, hother, heq⟩ | ⟨-, -, -, heq⟩ | ⟨-, -, heq⟩ <;> rw [heq]
  · exact h
  · obtain ⟨hrecord, hfit⟩ := hsound hc hother
    have hblock : m.blockchain.Accepts crypto block := by
      rw [BlockchainManager.judge_fst] at htrue
      cases hfind : m.cycleStateIntroduceBlock.processedBlocks.find?
          block.header.genericHeader.blockHash with
      | none =>
        rw [hfind] at htrue
        exact htrue
      | some verdict =>
        rw [hfind] at htrue
        exact hrecord (hfind.trans (congrArg some htrue))
    have hmerged := BlockchainManager.accepts_mergeBlock hown hblock (hfit hblock)
    refine ⟨hjudged.tip, ?_, fun _ => ?_⟩
    · show m.currentState = none ∨ m.currentState = some .collect → _
      simp [hstate]
    · rw [BlockchainManager.mergeBlock_judge_newBlock]
      exact hsame.accepts.2 hmerged
  · exact hjudged
  · exact hjudged.sameNegotiation (BlockchainManager.reportViolation_same _ _ _)

theorem collectCreation (h : NodeInv crypto m) (hstate : m.currentState = some .collect)
    (signature : Signature) :
    NodeInv crypto (m.collectCreation crypto signature) ∧
      (m.collectCreation crypto signature).currentState = some .collect := by
  have hcollected := h.collected (Or.inr hstate)
  unfold BlockchainManager.collectCreation
  split
  · dsimp only
    split_ifs with hlength hvalid
    · exact ⟨⟨h.tip, fun _ => hcollected.insertCreation hvalid, by simp [hstate]⟩, hstate⟩
    · exact ⟨⟨h.tip, fun _ => hcollected, h.introduced⟩, hstate⟩
    · exact ⟨⟨h.tip, fun _ => hcollected, h.introduced⟩, hstate⟩
  · exact ⟨h, hstate⟩

theorem collectTransaction (h : NodeInv crypto m) (hstate : m.currentState = some .collect)
    (signature : Signature) : NodeInv crypto (m.collectTransaction crypto signature) := by
  have hcollected := h.collected (Or.inr hstate)
  unfold BlockchainManager.collectTransaction
  split
  · dsimp only
    split_ifs with hempty hvalid
    · exact ⟨h.tip, fun _ => hcollected.insertTransaction hvalid, by simp [hstate]⟩
    · exact ⟨h.tip, fun _ => hcollected, h.introduced⟩
    · exact ⟨h.tip, fun _ => hcollected, h.introduced⟩
  · exact h

theorem enterState (htip : TipOk m.blockchain) {state : CycleState}
    (hstate : state = .collect ∨ state = .introduceBaseline) (now : BlockchainTime) :
    NodeInv crypto (m.enterState crypto state now).1 ∧ (m.enterState crypto state now).2 = [] := by
  rcases hstate with rfl | rfl
  · exact ⟨⟨htip, fun _ => Collected.empty crypto _, by simp⟩, rfl⟩
  · exact ⟨⟨htip.establishBaseline, by simp, by simp⟩, rfl⟩

/-- Starting a negotiation: the own block is put on top of the chain and sent. -/
theorem advance_start (h : NodeInv crypto m)
    (hstart : m.currentState = none ∨ m.currentState = some .collect) (now : BlockchainTime)
    (hsound : m.nextState = .introduceBlock → m.OwnBlockSound) :
    NodeInv crypto (m.step crypto (.advance now)) ∧ m.IntroducesValid crypto (.advance now) := by
  obtain ⟨hnext, hact⟩ := m.act_advance_start crypto now hstart
  obtain ⟨hid, hvalues, hcovers⟩ := hsound hnext
  obtain ⟨newest, hn, huid⟩ := h.tip.newest
  have haccepts := (h.collected hstart).accepts_placeBlock hn huid hid hvalues hcovers
  rw [← BlockchainManager.enterState_newBlock crypto now hn] at haccepts
  unfold BlockchainManager.step BlockchainManager.IntroducesValid BlockchainManager.effects
  rw [hact]
  refine ⟨⟨h.tip, by simp, fun _ => haccepts⟩, ?_⟩
  intro effect hmem block hblock
  have heffect : effect = .propagateBlock (m.enterState crypto .introduceBlock now).1.newBlock :=
    List.mem_singleton.1 hmem
  rw [heffect] at hblock
  cases hblock
  exact haccepts

/-- Ending a negotiation: the own block is added to the chain. -/
theorem advance_introduceBlock (h : NodeInv crypto m)
    (hstate : m.currentState = some .introduceBlock) (now : BlockchainTime) :
    NodeInv crypto (m.step crypto (.advance now)) ∧ m.IntroducesValid crypto (.advance now) := by
  have haccepts := h.introduced hstate
  have hrefill : refillHash crypto m.newBlock = m.newBlock :=
    refillHash_eq_self crypto haccepts.contents.choose_spec.2.hash
  obtain ⟨hother, hact⟩ := m.act_advance_introduceBlock crypto now hstate
  have htip : TipOk (m.exitIntroduceBlock crypto).1.blockchain := by
    rw [m.exitIntroduceBlock_blockchain crypto, hrefill]
    exact h.tip.addBlock haccepts
  obtain ⟨hentered, hnone⟩ := enterState htip hother now
  unfold BlockchainManager.step BlockchainManager.IntroducesValid BlockchainManager.effects
  rw [hact, hnone, hrefill]
  refine ⟨hentered, fun effect hmem block hblock => ?_⟩
  rw [List.mem_singleton.1 hmem] at hblock
  cases hblock
  exact haccepts

/-- **Moving on to the next state.** -/
theorem advance (h : NodeInv crypto m) (now : BlockchainTime)
    (hsound : m.nextState = .introduceBlock → m.OwnBlockSound) :
    NodeInv crypto (m.step crypto (.advance now)) ∧ m.IntroducesValid crypto (.advance now) := by
  cases hcurrent : m.currentState with
  | none => exact h.advance_start (Or.inl hcurrent) now hsound
  | some state =>
    cases state with
    | collect => exact h.advance_start (Or.inr hcurrent) now hsound
    | introduceBlock => exact h.advance_introduceBlock hcurrent now
    | introduceBaseline =>
      obtain ⟨hentered, hnone⟩ := enterState h.tip (Or.inl rfl) now
      unfold BlockchainManager.step BlockchainManager.IntroducesValid BlockchainManager.effects
      rw [m.act_advance_introduceBaseline crypto now hcurrent]
      refine ⟨hentered, fun effect hmem => ?_⟩
      rw [hnone] at hmem
      exact absurd hmem List.not_mem_nil

theorem onCycle (h : NodeInv crypto m) (now : BlockchainTime)
    (creationSignature transactionSignature : Signature) :
    NodeInv crypto (m.step crypto (.onCycle now creationSignature transactionSignature)) ∧
      m.IntroducesValid crypto (.onCycle now creationSignature transactionSignature) := by
  unfold BlockchainManager.step BlockchainManager.IntroducesValid BlockchainManager.effects
    BlockchainManager.act BlockchainManager.onCycle
  dsimp only
  split
  · rename_i hstate
    obtain ⟨hcreation, hstill⟩ := h.collectCreation hstate creationSignature
    exact ⟨hcreation.collectTransaction hstill transactionSignature,
      fun effect hmem => absurd hmem List.not_mem_nil⟩
  · rename_i hstate
    obtain ⟨-, -, -, hnew, hchain⟩ := m.cycleIntroduceBlock_records now
    have hcurrent : (m.cycleIntroduceBlock now).1.currentState = m.currentState := by
      simp only [BlockchainManager.cycleIntroduceBlock]
      split_ifs <;> rfl
    refine ⟨⟨by rw [hchain]; exact h.tip, ?_, fun _ => ?_⟩, fun effect hmem block hblock => ?_⟩
    · rw [hcurrent, hstate]
      simp
    · rw [hchain, hnew]
      exact h.introduced hstate
    · unfold BlockchainManager.cycleIntroduceBlock at hmem
      dsimp only at hmem
      split_ifs at hmem
      · rw [List.mem_singleton.1 hmem] at hblock
        cases hblock
        exact h.introduced hstate
      · exact absurd hmem List.not_mem_nil
  · exact ⟨h, fun effect hmem => absurd hmem List.not_mem_nil⟩

theorem received (h : NodeInv crypto m) (peer : PeerId) (block : CollectionBlock) (reply : Bool)
    (now : BlockchainTime)
    (hsound : reply = false → m.currentState = some .introduceBlock →
      m.ReceivesSoundly crypto block) :
    NodeInv crypto (m.step crypto (.collectionBlockReceived peer block reply now)) := by
  by_cases hstate : m.currentState = some .introduceBlock
  · cases reply with
    | true => exact h.sameNegotiation (BlockchainManager.step_reply_same hstate peer block now)
    | false =>
      exact (h.considerBlock hstate (hsound rfl hstate) peer).sameNegotiation
        (BlockchainManager.step_received_same hstate peer block now)
  · exact h.sameNegotiation (BlockchainManager.step_outside_same hstate peer block reply now)

/-- **One event.** -/
theorem step (h : NodeInv crypto m) {event : ManagerEvent} (hsound : m.ActsSoundly crypto event) :
    NodeInv crypto (m.step crypto event) ∧ m.IntroducesValid crypto event := by
  cases event with
  | advance now => exact h.advance now hsound
  | onCycle now creationSignature transactionSignature =>
    exact h.onCycle now creationSignature transactionSignature
  | collectionBlockReceived peer block reply now =>
    refine ⟨h.received peer block reply now hsound, fun effect hmem block' hblock => ?_⟩
    have hnone := m.introduced_received crypto peer block reply now effect hmem
    rw [hnone] at hblock
    exact absurd hblock (by simp)
  | foundHash data =>
    exact ⟨h.sameNegotiation ⟨rfl, rfl, rfl, rfl⟩, fun effect hmem => absurd hmem List.not_mem_nil⟩
  | triggerTransaction receiver fraction =>
    exact ⟨h.sameNegotiation ⟨rfl, rfl, rfl, rfl⟩, fun effect hmem => absurd hmem List.not_mem_nil⟩

end NodeInv

/-- **Whatever a node introduces is valid**, in every run whose events are all sound: every block
it sends to its peers and every block it adds to its chain. -/
theorem BlockchainManager.introducesValid_of_actsSoundly (crypto : CryptoHelper)
    (m : BlockchainManager) (events : List ManagerEvent) (htip : TipOk m.blockchain)
    (hstate : m.currentState = none) (hnew : m.newBlock = {})
    (hsound : Run.AllSteps (BlockchainManager.step crypto) (BlockchainManager.ActsSoundly crypto) m
      events) :
    Run.AllSteps (BlockchainManager.step crypto) (BlockchainManager.IntroducesValid crypto) m
      events := by
  have hstart : NodeInv crypto m := by
    refine ⟨htip, fun _ => ?_, by simp [hstate]⟩
    rw [hnew]
    exact Collected.empty crypto _
  refine (Run.AllSteps.with_invariant (I := NodeInv crypto) (fun _ _ h hs => (h.step hs).1) hstart
    hsound).mono ?_
  rintro m event ⟨h, hs⟩
  exact (h.step hs).2

namespace Sample

/-- Two valid blocks arrive during a negotiation, the result is sent and added, and the node goes
on to its next negotiation. -/
def twoBlocks : List ManagerEvent :=
  [.advance 0, .collectionBlockReceived [1] honestBlock false 0,
    .collectionBlockReceived [2] coinBlock false 0, .onCycle (2 ^ 40) [] [], .advance 0, .advance 0]

/-- A valid block in which `keyA` pays most of its coin to somebody. -/
def spending (receiver : PublicKeyPEM) : CollectionBlock :=
  block (.collection mining) [payment (.collection mining) keyA receiver 700000] []

/-- Two such blocks arrive, and the own block is sent. -/
def spendTwice : List ManagerEvent :=
  [.advance 0, .collectionBlockReceived [1] (spending keyB) false 0,
    .collectionBlockReceived [2] (spending keyC) false 0, .onCycle (2 ^ 40) [] []]

/-- A node that owns the coin itself. -/
def owner : BlockchainManager where
  ourPublicKey := keyA
  blockchain := minedChain

/-- Its user spends the coin twice. -/
def triggerTwice : List ManagerEvent :=
  [.advance 0, .advance 0, .triggerTransaction keyB 700000, .triggerTransaction keyC 700000,
    .onCycle 0 [] keyA.shortString, .onCycle 0 [] keyA.shortString, .advance 0]

end Sample

/-- The payment and the coin of the two blocks end up in the chain. -/
theorem twoBlocks_introduced :
    (Run.exec (BlockchainManager.step .sample) Sample.node
        Sample.twoBlocks).blockchain.getBalance Sample.keyB = 1300000 ∧
      Run.AllSteps (BlockchainManager.step .sample) (BlockchainManager.IntroducesValid .sample)
        Sample.node Sample.twoBlocks :=
  ⟨by decide +kernel, Sample.node.introducesValid_of_actsSoundly .sample Sample.twoBlocks
    Sample.tipOk_minedChain rfl rfl (by decide +kernel)⟩

/-- Two valid blocks that spend one coin are merged into an invalid one, and so are two payments
the node collects itself. -/
theorem overdrawn_block_introduced :
    (Sample.minedChain.Accepts .sample (Sample.spending Sample.keyB) ∧
      Sample.minedChain.Accepts .sample (Sample.spending Sample.keyC) ∧
      ¬ Run.AllSteps (BlockchainManager.step .sample) (BlockchainManager.IntroducesValid .sample)
        Sample.node Sample.spendTwice) ∧
      ¬ Run.AllSteps (BlockchainManager.step .sample) (BlockchainManager.IntroducesValid .sample)
        Sample.owner Sample.triggerTwice :=
  ⟨⟨by decide +kernel, by decide +kernel, by decide +kernel⟩, by decide +kernel⟩

end SwabianCoin
