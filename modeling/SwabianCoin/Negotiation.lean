import SwabianCoin.ChainRun
import SwabianCoin.Lib.Smallest
import SwabianCoin.Verdicts

/-!
# Negotiations converge

As long as one peer is enough to get a sub-block in, it does not matter in which order valid
blocks arrive, or how often. The own block ends up with the smallest transactions of all that have
been offered, and with the smallest creations after those with the same data value as a lower one
have been taken out. `Merged` says so for every moment of the phase; that there is only one such
block is a fact about `IsSmallest`.
-/

namespace SwabianCoin

open Machine

variable {crypto : CryptoHelper}

/-! ## Admitting -/

/-- Once the data value has been found, all further entries with it go. -/
theorem dropLaterDuplicates_true (dataValue : Bytes) (entries : List (Hash × CreationSubBlock)) :
    dropLaterDuplicates dataValue true entries =
      entries.filter fun entry => entry.2.dataValue ≠ dataValue := by
  induction entries with
  | nil => rfl
  | cons first rest ih =>
    by_cases hvalue : first.2.dataValue = dataValue
    · simp [dropLaterDuplicates, hvalue, ih]
    · simp [dropLaterDuplicates, hvalue, ih]

/-- All but the lowest entry with the data value go. -/
theorem mem_dropLaterDuplicates {dataValue : Bytes} {entries : List (Hash × CreationSubBlock)}
    (hsorted : entries.Pairwise fun a b => a.1 < b.1) {entry : Hash × CreationSubBlock} :
    entry ∈ dropLaterDuplicates dataValue false entries ↔
      entry ∈ entries ∧ (entry.2.dataValue = dataValue →
        ∀ other ∈ entries, other.2.dataValue = dataValue → entry.1 ≤ other.1) := by
  induction entries with
  | nil => simp [dropLaterDuplicates]
  | cons first rest ih =>
    obtain ⟨hfirst, hrest⟩ := List.pairwise_cons.1 hsorted
    rw [dropLaterDuplicates]
    by_cases hvalue : first.2.dataValue = dataValue
    · rw [if_pos hvalue, if_neg (by simp), dropLaterDuplicates_true, List.mem_cons,
        List.mem_filter, List.mem_cons]
      constructor
      · intro h
        rcases h with rfl | ⟨hmem, hother⟩
        · refine ⟨Or.inl rfl, fun _ other hother _ => ?_⟩
          rcases List.mem_cons.1 hother with rfl | hother
          · exact le_refl _
          · exact (hfirst other hother).le
        · exact ⟨Or.inr hmem, fun hv => absurd hv (of_decide_eq_true hother)⟩
      · intro h
        obtain ⟨hmem, hlowest⟩ := h
        rcases hmem with rfl | hmem
        · exact Or.inl rfl
        · -- A later entry with the data value is above the first one.
          refine Or.inr ⟨hmem, decide_eq_true fun hv => ?_⟩
          have hle := hlowest hv first (List.mem_cons_self ..) hvalue
          exact absurd (hfirst entry hmem) (not_lt.2 hle)
    · rw [if_neg hvalue, List.mem_cons, ih hrest, List.mem_cons]
      constructor
      · intro h
        rcases h with rfl | ⟨hmem, hlowest⟩
        · exact ⟨Or.inl rfl, fun hv => absurd hv hvalue⟩
        · refine ⟨Or.inr hmem, fun hv other hother hov => ?_⟩
          rcases List.mem_cons.1 hother with rfl | hother
          · exact absurd hov hvalue
          · exact hlowest hv other hother hov
      · intro h
        obtain ⟨hmem, hlowest⟩ := h
        rcases hmem with rfl | hmem
        · exact Or.inl rfl
        · refine Or.inr ⟨hmem, fun hv other hother => ?_⟩
          exact hlowest hv other (List.mem_cons_of_mem _ hother)

theorem mem_getRidOfDuplicates {creations : OrdMap Hash CreationSubBlock} {dataValue : Bytes}
    {entry : Hash × CreationSubBlock} :
    entry ∈ getRidOfDuplicates creations dataValue ↔
      entry ∈ creations ∧ (entry.2.dataValue = dataValue →
        ∀ other ∈ creations, other.2.dataValue = dataValue → entry.1 ≤ other.1) :=
  mem_dropLaterDuplicates creations.sorted

theorem mem_insert_of_not_mem_keys {β : Type} {T : OrdMap Hash β} {x e : Hash × β}
    (hx : x.1 ∉ T.keys) : e ∈ T.insert x.1 x.2 ↔ e = x ∨ e ∈ T := by
  rw [OrdMap.mem_insert]
  refine or_congr_right ⟨And.right, fun he => ⟨fun heq => hx ?_, he⟩⟩
  exact heq ▸ OrdMap.mem_keys.2 ⟨e.2, he⟩

theorem admitsSmallest_admitTransaction :
    AdmitsSmallest Prod.fst maxNumTransactions.toNat admitTransaction := by
  intro T x hx
  refine ⟨T.insert x.1 x.2, fun e => ?_, rfl⟩
  rw [mem_insert_of_not_mem_keys hx]
  refine ⟨fun he => ⟨he, fun hg f _ hgf => ?_⟩, And.left⟩
  rw [hg, hgf]

theorem admitsSmallest_admitCreation (limit : Nat) :
    AdmitsSmallest (fun entry => entry.2.dataValue) limit (admitCreation limit) := by
  intro T x hx
  refine ⟨getRidOfDuplicates (T.insert x.1 x.2) x.2.dataValue, fun e => ?_, rfl⟩
  rw [mem_getRidOfDuplicates]
  simp only [mem_insert_of_not_mem_keys hx]

/-! ## What has been offered -/

section Offered

variable {β : Type} (subBlocks : CollectionBlock → OrdMap Hash β)

/-- The entries of the own block at the start and of all blocks heard since. -/
def offered (start : BlockchainManager) (heard : List (PeerId × CollectionBlock)) :
    List (Hash × β) :=
  (subBlocks start.newBlock).entries ++ heard.flatMap fun message => (subBlocks message.2).entries

variable {subBlocks} {start : BlockchainManager} {heard : List (PeerId × CollectionBlock)}

theorem mem_offered {entry : Hash × β} :
    entry ∈ offered subBlocks start heard ↔
      entry ∈ subBlocks start.newBlock ∨ ∃ message ∈ heard, entry ∈ subBlocks message.2 := by
  unfold offered
  rw [List.mem_append, List.mem_flatMap]
  rfl

theorem offered_concat (message : PeerId × CollectionBlock) :
    {entry | entry ∈ offered subBlocks start (heard ++ [message])} =
      {entry | entry ∈ offered subBlocks start heard} ∪ {entry | entry ∈ subBlocks message.2} := by
  ext entry
  show entry ∈ offered subBlocks start (heard ++ [message]) ↔
    entry ∈ offered subBlocks start heard ∨ entry ∈ subBlocks message.2
  simp only [mem_offered, List.mem_append, List.mem_singleton, or_and_right, exists_or,
    exists_eq_left, or_assoc]

/-- A block that brings nothing new leaves what has been offered as it is. -/
theorem offered_concat_of_subset {message : PeerId × CollectionBlock}
    (h : ∀ entry ∈ subBlocks message.2, entry ∈ offered subBlocks start heard) :
    {entry | entry ∈ offered subBlocks start (heard ++ [message])} =
      {entry | entry ∈ offered subBlocks start heard} := by
  rw [offered_concat]
  exact Set.union_eq_left.2 h

/-- What has been offered does not depend on the order of the messages or on repetitions. -/
theorem offered_congr {start' : BlockchainManager} {heard' : List (PeerId × CollectionBlock)}
    (hown : start'.newBlock = start.newBlock)
    (h : ∀ block, block ∈ heard'.map Prod.snd ↔ block ∈ heard.map Prod.snd) :
    {entry | entry ∈ offered subBlocks start' heard'} =
      {entry | entry ∈ offered subBlocks start heard} := by
  have hmem : ∀ (messages : List (PeerId × CollectionBlock)) (entry : Hash × β),
      (∃ message ∈ messages, entry ∈ subBlocks message.2) ↔
        ∃ block ∈ messages.map Prod.snd, entry ∈ subBlocks block := by
    intro messages entry
    constructor
    · rintro ⟨message, hmem, hentry⟩
      exact ⟨message.2, List.mem_map_of_mem hmem, hentry⟩
    · rintro ⟨block, hblock, hentry⟩
      obtain ⟨message, hmem, rfl⟩ := List.mem_map.1 hblock
      exact ⟨message, hmem, hentry⟩
  ext entry
  show entry ∈ offered subBlocks start' heard' ↔ entry ∈ offered subBlocks start heard
  rw [mem_offered, mem_offered, hmem, hmem, hown]
  simp only [h]

theorem mem_offered_mono {messages : List (PeerId × CollectionBlock)}
    (h : ∀ message ∈ heard, message ∈ messages) {entry : Hash × β}
    (hentry : entry ∈ offered subBlocks start heard) :
    entry ∈ offered subBlocks start messages := by
  rcases mem_offered.1 hentry with hown | ⟨message, hmem, hin⟩
  · exact mem_offered.2 (Or.inl hown)
  · exact mem_offered.2 (Or.inr ⟨message, h message hmem, hin⟩)

end Offered

/-- All entries are stored under their own hashes, and different sub-blocks have different ones. -/
def UnderOwnHashes {β : Type} [Hashed β] (entries : List (Hash × β)) : Prop :=
  (∀ entry ∈ entries, entry.1 = Hashed.blockHash entry.2) ∧
    ∀ entry ∈ entries, ∀ other ∈ entries,
      Hashed.blockHash entry.2 = Hashed.blockHash other.2 → entry.2 = other.2

instance {β : Type} [Hashed β] [DecidableEq β] (entries : List (Hash × β)) :
    Decidable (UnderOwnHashes entries) :=
  inferInstanceAs (Decidable (_ ∧ _))

theorem UnderOwnHashes.uniqueKeys {β : Type} [Hashed β] {entries : List (Hash × β)}
    (h : UnderOwnHashes entries) {U : Set (Hash × β)} (hU : ∀ entry ∈ U, entry ∈ entries) :
    UniqueKeys U := by
  intro e he f hf heq
  have hown : Hashed.blockHash e.2 = Hashed.blockHash f.2 := by
    rw [← h.1 e (hU e he), ← h.1 f (hU f hf), heq]
  exact Prod.ext heq (h.2 e (hU e he) f (hU f hf) hown)

/-! ## The own block during the phase -/

/-- The own block is the one that what has been offered so far determines. -/
structure Merged (crypto : CryptoHelper) (start : BlockchainManager)
    (heard : List (PeerId × CollectionBlock)) (m : BlockchainManager) : Prop where
  recorded : Recorded crypto start heard m
  countersEmpty : m.cycleStateIntroduceBlock.CountersEmpty
  transactions : IsSmallest maxNumTransactions.toNat
    (Lowest Prod.fst {entry | entry ∈ offered CollectionBlock.transactions start heard})
    m.newBlock.transactions
  creations : IsSmallest (creationsLeft start.blockchain.getMiningState)
    (Lowest (fun entry => entry.2.dataValue)
      {entry | entry ∈ offered CollectionBlock.creations start heard})
    m.newBlock.creations
  hashFilled : refillHash crypto m.newBlock = m.newBlock

/-- What is assumed of a message, the ones before it and the state it meets. -/
structure Agreeable (crypto : CryptoHelper) (start : BlockchainManager)
    (heard : List (PeerId × CollectionBlock)) (m : BlockchainManager) (peer : PeerId)
    (block : CollectionBlock) : Prop where
  uid : block.header.blockUid = start.newBlock.header.blockUid
  accepted : ∀ message ∈ heard ++ [(peer, block)], start.blockchain.Accepts crypto message.2
  transactions : UniqueKeys
    {entry | entry ∈ offered CollectionBlock.transactions start (heard ++ [(peer, block)])}
  creations : UniqueKeys
    {entry | entry ∈ offered CollectionBlock.creations start (heard ++ [(peer, block)])}
  hashes : ∀ other ∈ m.newBlock :: heard.map Prod.snd,
    other.header.genericHeader.blockHash = block.header.genericHeader.blockHash → other = block
  threshold : m.cycleStateIntroduceBlock.threshold = 1

namespace Merged

variable {start m : BlockchainManager} {heard : List (PeerId × CollectionBlock)} {peer : PeerId}
  {block : CollectionBlock}

/-- A block that brings nothing new, and is not merged, changes nothing. -/
theorem concat_of_subset {m' : BlockchainManager} (h : Merged crypto start heard m)
    (hrecorded : Recorded crypto start (heard ++ [(peer, block)]) m')
    (hcounters : m'.cycleStateIntroduceBlock.CountersEmpty) (hnew : m'.newBlock = m.newBlock)
    (htransactions : ∀ entry ∈ block.transactions,
      entry ∈ offered CollectionBlock.transactions start heard)
    (hcreations : ∀ entry ∈ block.creations,
      entry ∈ offered CollectionBlock.creations start heard) :
    Merged crypto start (heard ++ [(peer, block)]) m' where
  recorded := hrecorded
  countersEmpty := hcounters
  transactions := by
    rw [offered_concat_of_subset htransactions, hnew]
    exact h.transactions
  creations := by
    rw [offered_concat_of_subset hcreations, hnew]
    exact h.creations
  hashFilled := by
    rw [hnew]
    exact h.hashFilled

theorem concat_of_heard {m' : BlockchainManager} (h : Merged crypto start heard m)
    (hrecorded : Recorded crypto start (heard ++ [(peer, block)]) m')
    (hcounters : m'.cycleStateIntroduceBlock.CountersEmpty) (hnew : m'.newBlock = m.newBlock)
    (hheard : block ∈ heard.map Prod.snd) : Merged crypto start (heard ++ [(peer, block)]) m' := by
  obtain ⟨message, hmem, rfl⟩ := List.mem_map.1 hheard
  exact h.concat_of_subset hrecorded hcounters hnew
    (fun _ he => mem_offered.2 (Or.inr ⟨message, hmem, he⟩))
    (fun _ he => mem_offered.2 (Or.inr ⟨message, hmem, he⟩))

theorem judge_eq_true (h : Merged crypto start heard m)
    (hinv : BlockchainManager.PhaseInv start m)
    (hagree : Agreeable crypto start heard m peer block) : (m.judge crypto block).1 = true := by
  rw [h.recorded.judge_fst hinv]
  cases hfirst : firstClaim start.newBlock.header.blockUid block.header.genericHeader.blockHash
      heard with
  | none => exact hagree.accepted (peer, block) (by simp)
  | some first =>
    obtain ⟨message, hmem, rfl⟩ := List.mem_map.1 (List.mem_of_find?_eq_some hfirst)
    exact hagree.accepted message (List.mem_append_left _ hmem)

theorem heard_of_not_considers (h : Merged crypto start heard m)
    (hinv : BlockchainManager.PhaseInv start m)
    (hagree : Agreeable crypto start heard m peer block) (hnot : ¬ m.Considers block) :
    block ∈ heard.map Prod.snd := by
  have hseen : block.header.genericHeader.blockHash ∈
      m.cycleStateIntroduceBlock.processedBlocks.keys := by
    by_contra hunseen
    exact hnot ⟨hagree.uid.trans hinv.blockUid.symm, fun hkey => absurd hkey hunseen⟩
  obtain ⟨first, hfirst⟩ :=
    Option.isSome_iff_exists.1 ((h.recorded.isSome_firstClaim_iff _).2 hseen)
  have hmem := List.mem_of_find?_eq_some hfirst
  have hclaim := List.find?_some hfirst
  simp only [Bool.and_eq_true, beq_iff_eq] at hclaim
  rw [← hagree.hashes first (List.mem_cons_of_mem _ hmem) hclaim.2]
  exact hmem

theorem mergeBlock (h : Merged crypto start heard m) (hinv : BlockchainManager.PhaseInv start m)
    (hagree : Agreeable crypto start heard m peer block)
    (hrecorded : Recorded crypto start (heard ++ [(peer, block)])
      ((m.judge crypto block).2.mergeBlock crypto block).1) :
    Merged crypto start (heard ++ [(peer, block)])
      ((m.judge crypto block).2.mergeBlock crypto block).1 := by
  have hT := hagree.transactions
  have hC := hagree.creations
  rw [offered_concat] at hT hC
  have hleft : creationsLeft m.blockchain.getMiningState =
      creationsLeft start.blockchain.getMiningState :=
    congrArg creationsLeft hinv.blockchain.miningState
  obtain ⟨hcounterT, htransactions⟩ := Ballot.offerAll_one_isSmallest
    { admitted := m.newBlock.transactions
      counter := m.cycleStateIntroduceBlock.transactionSubBlockCounter }
    admitsSmallest_admitTransaction hT h.countersEmpty.2 h.transactions
  obtain ⟨hcounterC, hcreations⟩ := Ballot.offerAll_one_isSmallest
    { admitted := m.newBlock.creations
      counter := m.cycleStateIntroduceBlock.creationSubBlockCounter }
    (admitsSmallest_admitCreation (creationsLeft start.blockchain.getMiningState)) hC
    h.countersEmpty.1 h.creations
  -- Judging the block before does not change what is voted on.
  have hofferT : (m.judge crypto block).2.offerTransactions block =
      Ballot.offerAll admitTransaction 1
        { admitted := m.newBlock.transactions
          counter := m.cycleStateIntroduceBlock.transactionSubBlockCounter }
        block.transactions := by
    rw [BlockchainManager.judge_offerTransactions, BlockchainManager.offerTransactions,
      hagree.threshold]
  have hofferC : (m.judge crypto block).2.offerCreations block =
      Ballot.offerAll (admitCreation (creationsLeft start.blockchain.getMiningState)) 1
        { admitted := m.newBlock.creations
          counter := m.cycleStateIntroduceBlock.creationSubBlockCounter }
        block.creations := by
    rw [BlockchainManager.judge_offerCreations, BlockchainManager.offerCreations,
      hagree.threshold, hleft]
  refine ⟨hrecorded, ?_, ?_, ?_, refillHash_refillHash crypto _⟩
  · show ((m.judge crypto block).2.offerCreations block).counter = ∅ ∧
      ((m.judge crypto block).2.offerTransactions block).counter = ∅
    rw [hofferT, hofferC]
    exact ⟨hcounterC, hcounterT⟩
  · show IsSmallest _ _ ((m.judge crypto block).2.offerTransactions block).admitted
    rw [offered_concat, hofferT]
    exact htransactions
  · show IsSmallest _ _ ((m.judge crypto block).2.offerCreations block).admitted
    rw [offered_concat, hofferC]
    exact hcreations

/-- **One message.** -/
theorem considerBlock (h : Merged crypto start heard m)
    (hinv : BlockchainManager.PhaseInv start m)
    (hagree : Agreeable crypto start heard m peer block) :
    Merged crypto start (heard ++ [(peer, block)]) (m.considerBlock crypto peer block).1 := by
  have hrecorded := h.recorded.considerBlock hinv peer block
  rcases BlockchainManager.considerBlock_cases crypto m peer block with
    ⟨hnot, heq⟩ | ⟨-, -, -, heq⟩ | ⟨-, -, hown, heq⟩ | ⟨-, hfalse, -⟩
  · rw [heq] at hrecorded ⊢
    exact h.concat_of_heard hrecorded h.countersEmpty rfl
      (h.heard_of_not_considers hinv hagree hnot)
  · rw [heq] at hrecorded ⊢
    exact h.mergeBlock hinv hagree hrecorded
  · rw [heq] at hrecorded ⊢
    -- The own block holds only what has been offered.
    obtain rfl : m.newBlock = block := hagree.hashes _ (List.mem_cons_self ..) hown.symm
    exact h.concat_of_subset hrecorded h.countersEmpty rfl
      (fun entry he => (h.transactions.mem entry he).1)
      (fun entry he => (h.creations.mem entry he).1)
  · exact absurd (h.judge_eq_true hinv hagree) (by simp [hfalse])

end Merged

/-! ## Convergence -/

/-- A negotiation of valid blocks. The chain is in order (as it is in every run), the own block is
within the limits and its data values are pairwise different, and all blocks that arrive are valid
and arrive while one peer is enough. Sub-blocks are stored under their own hashes, and there are
no collisions: different sub-blocks have different hashes, and so have different blocks. -/
structure IntroducePhase.Negotiable (crypto : CryptoHelper) (phase : IntroducePhase) : Prop where
  tip : TipOk phase.before.blockchain
  numTransactions : phase.before.newBlock.transactions.size ≤ maxNumTransactions.toNat
  numCreations : phase.before.newBlock.creations.size ≤
    creationsLeft phase.before.blockchain.getMiningState
  dataValues : (phase.before.newBlock.creations.values.map CreationSubBlock.dataValue).Nodup
  accepted : ∀ message ∈ phase.messages, phase.before.blockchain.Accepts crypto message.2
  transactions : UnderOwnHashes
    (offered CollectionBlock.transactions (phase.start crypto) phase.messages)
  creations : UnderOwnHashes
    (offered CollectionBlock.creations (phase.start crypto) phase.messages)
  hashes : phase.OnMessages crypto fun heard m _ block =>
    ∀ other ∈ m.newBlock :: heard.map Prod.snd,
      other.header.genericHeader.blockHash = block.header.genericHeader.blockHash → other = block
  threshold : phase.OnMessages crypto fun _ m _ _ => m.cycleStateIntroduceBlock.threshold = 1

namespace IntroducePhase.Negotiable

variable {phase : IntroducePhase}

theorem start_newBlock (h : phase.Negotiable crypto) :
    ∃ newest, phase.before.blockchain.getNewestBlock = some newest ∧
      newest.header.blockUid = phase.before.blockchain.getNewestBlockId ∧
      (phase.start crypto).newBlock = placeBlock crypto
        phase.before.blockchain.getNewestBlockId newest phase.before.newBlock := by
  obtain ⟨newest, hn, huid⟩ := h.tip.newest
  exact ⟨newest, hn, huid, BlockchainManager.enterState_newBlock crypto phase.enteredAt hn⟩

theorem start_subBlocks (h : phase.Negotiable crypto) :
    (phase.start crypto).newBlock.transactions = phase.before.newBlock.transactions ∧
      (phase.start crypto).newBlock.creations = phase.before.newBlock.creations := by
  obtain ⟨newest, -, -, hnew⟩ := h.start_newBlock
  rw [hnew]
  exact ⟨rfl, rfl⟩

theorem uid (h : phase.Negotiable crypto) {block : CollectionBlock}
    (haccepts : phase.before.blockchain.Accepts crypto block) :
    block.header.blockUid = (phase.start crypto).newBlock.header.blockUid := by
  obtain ⟨newest, hn, huid, hnew⟩ := h.start_newBlock
  obtain ⟨newest', hn', hcontents⟩ := haccepts.contents
  rw [hn] at hn'
  cases hn'
  rw [hnew, hcontents.uid, huid]
  rfl

theorem agreeable (h : phase.Negotiable crypto) :
    phase.OnMessages crypto (Agreeable crypto (phase.start crypto)) := by
  have hall := Run.AllSteps.and.2 ⟨phase.onMessages_heard crypto,
    Run.AllSteps.and.2 ⟨h.hashes, h.threshold⟩⟩
  refine hall.mono ?_
  rintro heard event ⟨hheard, hhashes, hthreshold⟩ message hmessage
  have hmem := hheard message hmessage
  have hself : message ∈ heard.1 ++ [(message.1, message.2)] := by simp
  exact
    { uid := h.uid (h.accepted message (hmem message hself))
      accepted := fun other hother => h.accepted other (hmem other hother)
      transactions := h.transactions.uniqueKeys fun _ he => mem_offered_mono hmem he
      creations := h.creations.uniqueKeys fun _ he => mem_offered_mono hmem he
      hashes := hhashes message hmessage
      threshold := hthreshold message hmessage }

theorem merged_start (h : phase.Negotiable crypto) :
    Merged crypto (phase.start crypto) [] (phase.start crypto) := by
  obtain ⟨htransactions, hcreations⟩ := h.start_subBlocks
  have hset : ∀ {β : Type} (subBlocks : CollectionBlock → OrdMap Hash β),
      {entry | entry ∈ offered subBlocks (phase.start crypto) []} =
        {entry | entry ∈ subBlocks (phase.start crypto).newBlock} := by
    intro β subBlocks
    ext entry
    simp [offered, OrdMap.mem_def]
  refine ⟨fun _ => rfl, ⟨rfl, rfl⟩, ?_, ?_, ?_⟩
  · rw [hset, lowest_eq_self]
    · refine IsSmallest.self _ ?_
      rw [htransactions]
      exact h.numTransactions
    · intro e he f hf heq
      exact OrdMap.eq_of_mem_of_fst_eq he hf heq
  · rw [hset, lowest_eq_self]
    · refine IsSmallest.self _ ?_
      rw [hcreations]
      exact h.numCreations
    · intro e he f hf heq
      have hnodup := h.dataValues
      rw [← hcreations, OrdMap.values, List.map_map] at hnodup
      exact List.inj_on_of_nodup_map hnodup he hf heq
  · obtain ⟨newest, -, -, hnew⟩ := h.start_newBlock
    rw [hnew]
    exact refillHash_refillHash crypto _

/-- **The own block at any time.** -/
theorem merged (h : phase.Negotiable crypto) :
    BlockchainManager.PhaseInv (phase.start crypto) (phase.state crypto) ∧
      Merged crypto (phase.start crypto) phase.messages (phase.state crypto) := by
  refine IntroducePhase.at_end (IntroducePhase.invariant h.agreeable h.merged_start ?_ ?_ ?_)
  · intro heard m m' hm hs
    exact ⟨fun hash => by rw [hs.state]; exact hm.recorded hash,
      by rw [hs.state]; exact hm.countersEmpty, by rw [hs.newBlock]; exact hm.transactions,
      by rw [hs.newBlock]; exact hm.creations, by rw [hs.newBlock]; exact hm.hashFilled⟩
  · intro heard m now hm
    obtain ⟨hprocessed, htransactions, hcreations, hnew, -⟩ := m.cycleIntroduceBlock_records now
    have hempty := hm.countersEmpty
    exact ⟨fun hash => by rw [hprocessed]; exact hm.recorded hash,
      ⟨hcreations.trans hempty.1, htransactions.trans hempty.2⟩,
      by rw [hnew]; exact hm.transactions, by rw [hnew]; exact hm.creations,
      by rw [hnew]; exact hm.hashFilled⟩
  · intro heard m peer block hinv hagree hm
    exact hm.considerBlock hinv hagree

end IntroducePhase.Negotiable

/-- **Negotiation converges.** The own block holds the smallest transactions of all that were
offered, and the smallest creations of those with the lowest hash for their data value; and it is
the same block in every phase in which the same blocks arrive, in whatever order and however
often. -/
theorem IntroducePhase.negotiation_converges (crypto : CryptoHelper) (phase phase' : IntroducePhase)
    (h : phase.Negotiable crypto) (h' : phase'.Negotiable crypto)
    (hchain : phase'.before.blockchain = phase.before.blockchain)
    (hown : phase'.before.newBlock = phase.before.newBlock)
    (hblocks : ∀ block,
      block ∈ phase'.messages.map Prod.snd ↔ block ∈ phase.messages.map Prod.snd) :
    (phase'.state crypto).newBlock = (phase.state crypto).newBlock ∧
      IsSmallest maxNumTransactions.toNat
        {entry | entry ∈ offered CollectionBlock.transactions (phase.start crypto) phase.messages}
        (phase.state crypto).newBlock.transactions ∧
      IsSmallest (creationsLeft phase.before.blockchain.getMiningState)
        (Lowest (fun entry => entry.2.dataValue)
          {entry | entry ∈ offered CollectionBlock.creations (phase.start crypto) phase.messages})
        (phase.state crypto).newBlock.creations := by
  obtain ⟨hinv, hm⟩ := h.merged
  obtain ⟨hinv', hm'⟩ := h'.merged
  have hstart : (phase'.start crypto).newBlock = (phase.start crypto).newBlock := by
    obtain ⟨newest, hn, -, hnew⟩ := h.start_newBlock
    obtain ⟨newest', hn', -, hnew'⟩ := h'.start_newBlock
    rw [hchain, hn] at hn'
    cases hn'
    rw [hnew, hnew', hchain, hown]
  -- Both own blocks are the smallest ones of the same set.
  have htransactions : (phase'.state crypto).newBlock.transactions =
      (phase.state crypto).newBlock.transactions := by
    have hsmallest := hm'.transactions
    rw [offered_congr hstart hblocks] at hsmallest
    exact hsmallest.unique hm.transactions
  have hcreations : (phase'.state crypto).newBlock.creations =
      (phase.state crypto).newBlock.creations := by
    have hsmallest := hm'.creations
    rw [offered_congr hstart hblocks, show (phase'.start crypto).blockchain =
      (phase.start crypto).blockchain from hchain] at hsmallest
    exact hsmallest.unique hm.creations
  refine ⟨?_, ?_, hm.creations⟩
  · rw [← hm.hashFilled, ← hm'.hashFilled]
    refine refillHash_congr crypto ?_ ?_ ?_ htransactions hcreations
    · rw [hinv'.blockUid, hinv.blockUid, hstart]
    · rw [hinv'.previousBlockHash, hinv.previousBlockHash, hstart]
    · rw [hinv'.blockType, hinv.blockType, hstart]
  · have hsmallest := hm.transactions
    rw [lowest_eq_self] at hsmallest
    · exact hsmallest
    · exact h.transactions.uniqueKeys fun _ he => he

namespace Sample

/-- A valid block with a coin for `keyB`. -/
def coinBlock : CollectionBlock :=
  block (.collection mining) [] [coin (.collection mining) keyB [1]]

/-- Two valid blocks arrive. -/
def paymentFirst : IntroducePhase where
  before := node
  enteredAt := 0
  events := [.collectionBlockReceived [1] honestBlock false 0,
    .collectionBlockReceived [2] coinBlock false 0]
  stays := by decide

/-- The same blocks arrive in the other order, and one of them twice. -/
def coinFirst : IntroducePhase where
  before := node
  enteredAt := 0
  events := [.collectionBlockReceived [2] coinBlock false 0,
    .collectionBlockReceived [1] honestBlock false 0,
    .collectionBlockReceived [3] coinBlock false 0]
  stays := by decide

theorem tipOk_minedChain : TipOk minedChain :=
  (TipOk.initEmptyChain .sample {}).addBlock (by decide +kernel)

theorem negotiable_paymentFirst : paymentFirst.Negotiable .sample where
  tip := tipOk_minedChain
  numTransactions := by decide +kernel
  numCreations := by decide +kernel
  dataValues := by decide +kernel
  accepted := by decide +kernel
  transactions := by decide +kernel
  creations := by decide +kernel
  hashes := by
    unfold IntroducePhase.OnMessages IntroducePhase.AllEvents
    decide +kernel
  threshold := by
    unfold IntroducePhase.OnMessages IntroducePhase.AllEvents
    decide +kernel

theorem negotiable_coinFirst : coinFirst.Negotiable .sample where
  tip := tipOk_minedChain
  numTransactions := by decide +kernel
  numCreations := by decide +kernel
  dataValues := by decide +kernel
  accepted := by decide +kernel
  transactions := by decide +kernel
  creations := by decide +kernel
  hashes := by
    unfold IntroducePhase.OnMessages IntroducePhase.AllEvents
    decide +kernel
  threshold := by
    unfold IntroducePhase.OnMessages IntroducePhase.AllEvents
    decide +kernel

end Sample

/-- Both orders lead to the block with the payment and the coin. -/
theorem coinFirst_agrees_with_paymentFirst :
    ((Sample.paymentFirst.state .sample).newBlock.transactions.size = 1 ∧
      (Sample.paymentFirst.state .sample).newBlock.creations.size = 1) ∧
      (Sample.coinFirst.state .sample).newBlock = (Sample.paymentFirst.state .sample).newBlock := by
  have hsame : ∀ a b block : CollectionBlock, block ∈ [b, a, b] ↔ block ∈ [a, b] := by
    intro a b block
    simp only [List.mem_cons, List.not_mem_nil, or_false]
    tauto
  exact ⟨by decide +kernel, (IntroducePhase.negotiation_converges .sample Sample.paymentFirst
    Sample.coinFirst Sample.negotiable_paymentFirst Sample.negotiable_coinFirst rfl rfl
    (hsame Sample.honestBlock Sample.coinBlock)).1⟩

end SwabianCoin
