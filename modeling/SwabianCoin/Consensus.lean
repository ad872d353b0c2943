import SwabianCoin.Network

/-!
# Agreement

All nodes of a network run this program, and whatever they collect in a round can be paid for.
Negotiations are long enough: nobody leaves one before everybody's own block has reached it, in
whatever way, while one peer is enough (`Fair`). Then all nodes add the same blocks, in any order
of events and in any number of rounds, although they neither wait for each other nor agree on
when a round begins.

* `AccountsFor` — what a block says about the proposals of some nodes, and what becomes of that
  when blocks are merged.
* `NodeOk`, `MessageOk` — the invariant: for every node, and for every message ever sent.
* `everything_decided` — the result, from which agreement and validity follow.
-/

namespace SwabianCoin

open Machine

variable {ι : Type} {crypto : CryptoHelper} {genesis : Blockchain} {pool : Nat → CollectionBlock}

namespace Network

/-! ## Assumptions -/

section Fair

variable (pool) (s : Network ι)

/-- The node may start its negotiation. There is an id left, its data values differ, what it has
collected belongs to the pool of the round, and the whole pool can be paid for. -/
def MayOpen (i : ι) : Prop :=
  (s.nodes i).blockchain.getNewestBlockId + 1 ≠ 0 ∧
    ((s.nodes i).newBlock.creations.values.map CreationSubBlock.dataValue).Nodup ∧
    (∀ entry ∈ (s.nodes i).newBlock.transactions, entry ∈ (pool (s.round i)).transactions) ∧
    (∀ entry ∈ (s.nodes i).newBlock.creations, entry ∈ (pool (s.round i)).creations) ∧
    (s.nodes i).blockchain.Affords (pool (s.round i))

instance (i : ι) : Decidable (s.MayOpen pool i) := inferInstanceAs (Decidable (_ ∧ _))

/-- What is assumed when a node moves on. -/
def MayAdvance (i : ι) : Option CycleState → Prop
  | some .introduceBlock => ∀ k, k ∈ s.knows i
  | some .introduceBaseline => True
  | some .collect => s.MayOpen pool i
  | none => s.MayOpen pool i

/-- What is assumed of an event. Blocks come only from other nodes, and no two blocks a node gets
to see have the same hash. -/
def Fair : NetworkEvent ι → Prop
  | .act i (.advance _) => s.MayAdvance pool i (s.nodes i).currentState
  | .act _ (.collectionBlockReceived _ _ reply _) => reply = true
  | .act _ _ => True
  | .deliver i number _ => ∀ message ∈ s.sent[number]?,
      ∀ other ∈ (s.nodes i).newBlock :: s.sent.map Message.block,
        other.header.genericHeader.blockHash = message.block.header.genericHeader.blockHash →
          other = message.block

variable [Fintype ι] [DecidableEq ι]

instance (i : ι) : ∀ state, Decidable (s.MayAdvance pool i state)
  | some .introduceBlock => inferInstanceAs (Decidable (∀ k, k ∈ s.knows i))
  | some .introduceBaseline => inferInstanceAs (Decidable True)
  | some .collect => inferInstanceAs (Decidable (s.MayOpen pool i))
  | none => inferInstanceAs (Decidable (s.MayOpen pool i))

instance : ∀ event, Decidable (s.Fair pool event)
  | .act i (.advance _) => inferInstanceAs (Decidable (s.MayAdvance pool i _))
  | .act _ (.collectionBlockReceived _ _ _ _) => inferInstanceAs (Decidable (_ = _))
  | .act _ (.onCycle _ _ _) => inferInstanceAs (Decidable True)
  | .act _ (.foundHash _) => inferInstanceAs (Decidable True)
  | .act _ (.triggerTransaction _ _) => inferInstanceAs (Decidable True)
  | .deliver _ number _ => inferInstanceAs (Decidable (∀ message ∈ s.sent[number]?, _))

end Fair

/-! ## Records grow -/

/-- Nothing is taken back from the records. -/
structure Grows (s s' : Network ι) : Prop where
  sent : ∀ message ∈ s.sent, message ∈ s'.sent
  added : ∀ i, s.added i <+: s'.added i
  own : ∀ i, s.own i <+: s'.own i

section Grows

variable {s s' : Network ι} {β : Type} {subBlocks : CollectionBlock → OrdMap Hash β} {round : Nat}
  {K K' : Set ι}

theorem Grows.chain (h : Grows s s') {i : ι} (hround : round ≤ s.round i) :
    s'.chain crypto genesis i round = s.chain crypto genesis i round := by
  obtain ⟨rest, hrest⟩ := h.added i
  unfold Network.chain
  rw [← hrest, List.take_append_of_le_length hround]

theorem Grows.getElem? (h : Grows s s') {i : ι} {block : CollectionBlock}
    (hblock : (s.own i)[round]? = some block) : (s'.own i)[round]? = some block := by
  obtain ⟨rest, hrest⟩ := h.own i
  rw [← hrest, List.getElem?_append_left (List.getElem?_eq_some_iff.1 hblock).1, hblock]

theorem Grows.length_own_le (h : Grows s s') (i : ι) : (s.own i).length ≤ (s'.own i).length :=
  (h.own i).length_le

theorem Grows.proposed_subset (h : Grows s s') :
    s.proposed subBlocks round K ⊆ s'.proposed subBlocks round K := by
  rintro entry ⟨i, hi, block, hblock, hentry⟩
  exact ⟨i, hi, block, h.getElem? hblock, hentry⟩

theorem Grows.proposed_eq (h : Grows s s') (hK : ∀ i ∈ K, round < (s.own i).length) :
    s'.proposed subBlocks round K = s.proposed subBlocks round K := by
  refine Set.Subset.antisymm ?_ h.proposed_subset
  rintro entry ⟨i, hi, block, hblock, hentry⟩
  have hold := List.getElem?_eq_getElem (hK i hi)
  rw [h.getElem? hold] at hblock
  cases hblock
  exact ⟨i, hi, _, hold, hentry⟩

theorem proposed_union :
    s.proposed subBlocks round (K ∪ K') =
      s.proposed subBlocks round K ∪ s.proposed subBlocks round K' := by
  ext entry
  simp only [proposed, Set.mem_ofPred_eq, Set.mem_union, or_and_right, exists_or]

theorem Decided.grows {bc : Blockchain} {block : CollectionBlock}
    (h : s.Decided crypto bc round block) (hgrows : Grows s s') :
    s'.Decided crypto bc round block where
  accepted := h.accepted
  everybody i := (h.everybody i).trans_le (hgrows.length_own_le i)
  transactions := by
    rw [hgrows.proposed_eq fun i _ => h.everybody i]
    exact h.transactions
  creations := by
    rw [hgrows.proposed_eq fun i _ => h.everybody i]
    exact h.creations

end Grows

/-! ## What a block accounts for -/

/-- The sub-blocks of a block are those that the proposals of the nodes `K` and perhaps some more
lead to. Of the blocks `heard`, nothing has been forgotten. -/
structure AccountsFor (s : Network ι) (round : Nat) (K : Set ι) (limit : Nat)
    (heard : Set CollectionBlock) (block : CollectionBlock) (state : CycleStateIntroduceBlock) :
    Prop where
  transactions : Accounts maxNumTransactions.toNat Prod.fst
    (s.proposed CollectionBlock.transactions round K)
    (s.proposed CollectionBlock.transactions round Set.univ)
    {entry | ∃ other ∈ heard, entry ∈ other.transactions}
    { admitted := block.transactions, counter := state.transactionSubBlockCounter }
  creations : Accounts limit (fun entry => entry.2.dataValue)
    (s.proposed CollectionBlock.creations round K)
    (s.proposed CollectionBlock.creations round Set.univ)
    {entry | ∃ other ∈ heard, entry ∈ other.creations}
    { admitted := block.creations, counter := state.creationSubBlockCounter }

/-- In a round, no key stands for two sub-blocks. -/
structure Unambiguous (s : Network ι) (round : Nat) : Prop where
  transactions : UniqueKeys (s.proposed CollectionBlock.transactions round Set.univ)
  creations : UniqueKeys (s.proposed CollectionBlock.creations round Set.univ)

namespace AccountsFor

variable {s s' : Network ι} {round limit : Nat} {K K' : Set ι} {heard heard' : Set CollectionBlock}
  {block other : CollectionBlock} {state state' : CycleStateIntroduceBlock}

theorem grows (h : s.AccountsFor round K limit heard block state) (hgrows : Grows s s')
    (hK : ∀ i ∈ K, round < (s.own i).length) :
    s'.AccountsFor round K limit heard block state where
  transactions := h.transactions.mono (hgrows.proposed_eq hK).subset hgrows.proposed_subset
    subset_rfl
  creations := h.creations.mono (hgrows.proposed_eq hK).subset hgrows.proposed_subset subset_rfl

/-- What is sent away is the block alone. -/
theorem sent (h : s.AccountsFor round K limit heard block state) :
    s.AccountsFor round K limit ∅ block {} := by
  obtain ⟨⟨V, hV, hVU, hsmallest, -⟩, V', hV', hVU', hsmallest', -⟩ := h
  refine ⟨⟨V, hV, hVU, hsmallest, fun entry he => ?_⟩,
    V', hV', hVU', hsmallest', fun entry he => ?_⟩
  · exact absurd he.choose_spec.1 (Set.notMem_empty _)
  · exact absurd he.choose_spec.1 (Set.notMem_empty _)

/-- A block a node starts with accounts for its own proposals. -/
theorem self {i : ι} (hown : (s.own i)[round]? = some block)
    (hdata : ∀ e ∈ block.creations, ∀ f ∈ block.creations, e.2.dataValue = f.2.dataValue → e = f)
    (hT : block.transactions.size ≤ maxNumTransactions.toNat) (hC : block.creations.size ≤ limit) :
    s.AccountsFor round {i} limit ∅ block state := by
  have hset : ∀ {β : Type} (subBlocks : CollectionBlock → OrdMap Hash β),
      s.proposed subBlocks round {i} = {entry | entry ∈ subBlocks block} := by
    intro β subBlocks
    ext entry
    simp only [proposed, Set.mem_singleton_iff, exists_eq_left, hown, Option.some.injEq,
      Set.mem_ofPred_eq, exists_eq_left']
  have hsub : ∀ {β : Type} (subBlocks : CollectionBlock → OrdMap Hash β),
      s.proposed subBlocks round {i} ⊆ s.proposed subBlocks round Set.univ := by
    rintro β subBlocks entry ⟨k, -, other, hother, hentry⟩
    exact ⟨k, trivial, other, hother, hentry⟩
  refine ⟨⟨_, subset_rfl, hsub _, ?_, fun _ he => absurd he.choose_spec.1 (Set.notMem_empty _)⟩,
    _, subset_rfl, hsub _, ?_, fun _ he => absurd he.choose_spec.1 (Set.notMem_empty _)⟩
  · rw [hset, lowest_eq_self]
    · exact IsSmallest.self _ hT
    · exact fun e he f hf heq => OrdMap.eq_of_mem_of_fst_eq he hf heq
  · rw [hset, lowest_eq_self]
    · exact IsSmallest.self _ hC
    · exact hdata

theorem hearOwn (h : s.AccountsFor round K limit heard block state) :
    s.AccountsFor round K limit (insert block heard) block state := by
  obtain ⟨⟨V, hV, hVU, hsmallest, hseen⟩, V', hV', hVU', hsmallest', hseen'⟩ := h
  refine ⟨⟨V, hV, hVU, hsmallest, ?_⟩, V', hV', hVU', hsmallest', ?_⟩
  · rintro entry ⟨other, rfl | hother, hentry⟩
    · exact Or.inl (hsmallest.mem entry hentry).1
    · exact hseen entry ⟨other, hother, hentry⟩
  · rintro entry ⟨other, rfl | hother, hentry⟩
    · exact Or.inl (hsmallest'.mem entry hentry).1
    · exact hseen' entry ⟨other, hother, hentry⟩

/-- Whoever has heard a block accounts for all that this block accounts for, unless something is
still being counted. -/
theorem absorb (hunambiguous : s.Unambiguous round)
    (h : s.AccountsFor round K limit heard block state)
    (hother : s.AccountsFor round K' limit heard' other state') (hheard : other ∈ heard)
    (hempty : state.CountersEmpty) :
    s.AccountsFor round (K ∪ K') limit heard block state where
  transactions := by
    rw [proposed_union]
    exact h.transactions.absorb hunambiguous.transactions hother.transactions hempty.2
      fun entry he => ⟨other, hheard, he⟩
  creations := by
    rw [proposed_union]
    exact h.creations.absorb hunambiguous.creations hother.creations hempty.1
      fun entry he => ⟨other, hheard, he⟩

/-- **Merging a block.** -/
theorem mergeBlock (crypto : CryptoHelper) {m : BlockchainManager}
    (hunambiguous : s.Unambiguous round)
    (h : s.AccountsFor round K (creationsLeft m.blockchain.getMiningState) heard m.newBlock
      m.cycleStateIntroduceBlock)
    (hother : s.AccountsFor round K' limit heard' other state')
    (hheard : ∀ block ∈ heard, ∃ K limit state, s.AccountsFor round K limit ∅ block state) :
    s.AccountsFor round K (creationsLeft m.blockchain.getMiningState) (insert other heard)
      (m.mergeBlock crypto other).1.newBlock
      (m.mergeBlock crypto other).1.cycleStateIntroduceBlock where
  transactions := by
    have hseen : {entry | ∃ block ∈ heard, entry ∈ block.transactions} ⊆
        s.proposed CollectionBlock.transactions round Set.univ := by
      rintro entry ⟨block, hblock, hentry⟩
      obtain ⟨_, _, _, hblock⟩ := hheard block hblock
      exact hblock.transactions.mem hentry
    refine (h.transactions.offerAll admitsSmallest_admitTransaction hunambiguous.transactions hseen
      fun entry => hother.transactions.mem).mono subset_rfl subset_rfl ?_
    rintro entry ⟨block, rfl | hblock, hentry⟩
    · exact Or.inr hentry
    · exact Or.inl ⟨block, hblock, hentry⟩
  creations := by
    have hseen : {entry | ∃ block ∈ heard, entry ∈ block.creations} ⊆
        s.proposed CollectionBlock.creations round Set.univ := by
      rintro entry ⟨block, hblock, hentry⟩
      obtain ⟨_, _, _, hblock⟩ := hheard block hblock
      exact hblock.creations.mem hentry
    refine (h.creations.offerAll (admitsSmallest_admitCreation _) hunambiguous.creations hseen
      fun entry => hother.creations.mem).mono subset_rfl subset_rfl ?_
    rintro entry ⟨block, rfl | hblock, hentry⟩
    · exact Or.inr hentry
    · exact Or.inl ⟨block, hblock, hentry⟩

end AccountsFor

/-! ## The invariant -/

section Invariant

variable (crypto genesis pool) (s : Network ι)

/-- A node that negotiates has taken the own blocks of all it knows into account. The blocks it
has heard since it began are the ones with a verdict, which is positive. -/
structure Negotiating (i : ι) (heard : Set CollectionBlock) : Prop where
  heard_sent : ∀ block ∈ heard, ∃ message ∈ s.sent, message.block = block ∧
    message.round = s.round i
  known : ∀ k ∈ s.knows i, s.round i < (s.own k).length
  accounts : s.AccountsFor (s.round i) (s.knows i)
    (creationsLeft (s.nodes i).blockchain.getMiningState) heard (s.nodes i).newBlock
    (s.nodes i).cycleStateIntroduceBlock
  processed : ∀ hash ∈ (s.nodes i).cycleStateIntroduceBlock.processedBlocks.keys,
    ∃ block ∈ heard, block.header.genericHeader.blockHash = hash
  verdicts : ∀ entry ∈ (s.nodes i).cycleStateIntroduceBlock.processedBlocks, entry.2 = true

/-- A node whose chain consists of blocks all nodes agree on. -/
structure NodeOk (i : ι) : Prop where
  node : NodeInv crypto (s.nodes i)
  chain : SameChain (s.chain crypto genesis i (s.round i)) (s.nodes i).blockchain
  decided : ∀ round block, (s.added i)[round]? = some block →
    s.Decided crypto (s.chain crypto genesis i round) round block
  rounds : (s.own i).length =
    s.round i + if (s.nodes i).currentState = some .introduceBlock then 1 else 0
  pooled : ∀ round block, (s.own i)[round]? = some block →
    (∀ entry ∈ block.transactions, entry ∈ (pool round).transactions) ∧
      ∀ entry ∈ block.creations, entry ∈ (pool round).creations ∧
        entry.1 = entry.2.header.genericHeader.blockHash
  affords : ∀ round < (s.own i).length,
    (s.chain crypto genesis i round).Affords (pool round)
  negotiating : (s.nodes i).currentState = some .introduceBlock →
    ∃ heard, s.Negotiating i heard

/-- A message says what its sender knew, in a block that was valid for it. -/
structure MessageOk (message : Message ι) : Prop where
  started : message.round < (s.own message.sender).length
  round_le : message.round ≤ s.round message.sender
  known : ∀ k ∈ message.knows, message.round < (s.own k).length
  accepted : (s.chain crypto genesis message.sender message.round).Accepts crypto message.block
  accounts : s.AccountsFor message.round message.knows
    (creationsLeft (s.chain crypto genesis message.sender message.round).getMiningState) ∅
    message.block {}

structure Inv : Prop where
  tip : TipOk genesis
  node : ∀ i, s.NodeOk crypto genesis pool i
  message : ∀ message ∈ s.sent, s.MessageOk crypto genesis message

end Invariant

/-! ## Rounds and chains -/

section Chains

variable {s s' : Network ι} {i j : ι} {round round' : Nat}

theorem chain_succ {block : CollectionBlock} (h : (s.added i)[round]? = some block) :
    s.chain crypto genesis i (round + 1) =
      (s.chain crypto genesis i round).extend crypto block := by
  unfold chain
  rw [List.take_add_one, h, List.foldl_append]
  rfl

theorem NodeOk.tipOk (h : s.NodeOk crypto genesis pool i) (htip : TipOk genesis)
    (hround : round ≤ s.round i) : TipOk (s.chain crypto genesis i round) := by
  induction round with
  | zero => exact htip
  | succ round ih =>
    have hblock : (s.added i)[round]? = some _ := List.getElem?_eq_getElem hround
    rw [chain_succ hblock]
    exact (ih (by omega)).extend (h.decided round _ hblock).accepted

/-- Every round has its own id. -/
theorem NodeOk.newestBlockId_lt (h : s.NodeOk crypto genesis pool i) (htip : TipOk genesis)
    (hlt : round < round') (hround : round' ≤ s.round i) :
    (s.chain crypto genesis i round).getNewestBlockId <
      (s.chain crypto genesis i round').getNewestBlockId := by
  induction round' with
  | zero => exact absurd hlt (Nat.not_lt_zero _)
  | succ last ih =>
    have hblock : (s.added i)[last]? = some _ := List.getElem?_eq_getElem hround
    have hnext : (s.chain crypto genesis i last).getNewestBlockId <
        (s.chain crypto genesis i (last + 1)).getNewestBlockId := by
      rw [chain_succ hblock]
      exact (h.tipOk htip (by omega)).newestBlockId_lt_extend (h.decided last _ hblock).accepted
    rcases Nat.lt_succ_iff_lt_or_eq.1 hlt with hearlier | rfl
    · exact (ih hearlier (by omega)).trans hnext
    · exact hnext

/-- **Nodes that have decided on the same number of blocks have decided on the same blocks.** -/
theorem Inv.take_eq (h : s.Inv crypto genesis pool) (hi : round ≤ s.round i)
    (hj : round ≤ s.round j) : (s.added i).take round = (s.added j).take round := by
  induction round with
  | zero => rfl
  | succ round ih =>
    have hsame := ih (by omega) (by omega)
    have hblock : (s.added i)[round]? = some _ := List.getElem?_eq_getElem hi
    have hblock' : (s.added j)[round]? = some _ := List.getElem?_eq_getElem hj
    have hdecided := (h.node i).decided round _ hblock
    have hdecided' := (h.node j).decided round _ hblock'
    rw [chain, hsame] at hdecided
    rw [List.take_add_one, List.take_add_one, hsame, hblock, hblock', hdecided.unique hdecided']

theorem Inv.chain_eq (h : s.Inv crypto genesis pool) (hi : round ≤ s.round i)
    (hj : round ≤ s.round j) :
    s.chain crypto genesis i round = s.chain crypto genesis j round := by
  rw [chain, h.take_eq hi hj, chain]

/-- No key stands for two sub-blocks, since they are all in the pool. -/
theorem Inv.unambiguous (h : s.Inv crypto genesis pool) (round : Nat) : s.Unambiguous round where
  transactions := by
    rintro e ⟨i, -, block, hblock, he⟩ f ⟨j, -, block', hblock', hf⟩ heq
    exact OrdMap.eq_of_mem_of_fst_eq (((h.node i).pooled round block hblock).1 e he)
      (((h.node j).pooled round block' hblock').1 f hf) heq
  creations := by
    rintro e ⟨i, -, block, hblock, he⟩ f ⟨j, -, block', hblock', hf⟩ heq
    exact OrdMap.eq_of_mem_of_fst_eq (((h.node i).pooled round block hblock).2 e he).1
      (((h.node j).pooled round block' hblock').2 f hf).1 heq

theorem NodeOk.uid (h : s.NodeOk crypto genesis pool i)
    (hstate : (s.nodes i).currentState = some .introduceBlock) :
    (s.nodes i).newBlock.header.blockUid =
      (s.chain crypto genesis i (s.round i)).getNewestBlockId + 1 := by
  rw [h.node.tip.uid_of_accepts (h.node.introduced hstate), h.node.tip.next,
    h.chain.newestBlockId]

/-- **A block with the right id is one of the current round.** -/
theorem Inv.round_eq (h : s.Inv crypto genesis pool) {message : Message ι}
    (hmessage : message ∈ s.sent) (hstate : (s.nodes i).currentState = some .introduceBlock)
    (huid : message.block.header.blockUid = (s.nodes i).newBlock.header.blockUid) :
    message.round = s.round i := by
  have hok := h.message message hmessage
  have htip := (h.node message.sender).tipOk h.tip hok.round_le
  have hnewest : (s.chain crypto genesis message.sender message.round).getNewestBlockId =
      (s.chain crypto genesis i (s.round i)).getNewestBlockId := by
    have hsent := htip.uid_of_accepts hok.accepted
    rw [htip.next, huid, (h.node i).uid hstate] at hsent
    exact (UInt64.add_left_inj 1).1 hsent.symm
  rcases Nat.lt_trichotomy message.round (s.round i) with hlt | heq | hlt
  · have hbelow := (h.node i).newestBlockId_lt h.tip hlt (le_refl _)
    rw [← h.chain_eq hok.round_le hlt.le, hnewest] at hbelow
    exact absurd hbelow (lt_irrefl _)
  · exact heq
  · have hbelow := (h.node message.sender).newestBlockId_lt h.tip hlt hok.round_le
    rw [h.chain_eq (hlt.le.trans hok.round_le) (le_refl (s.round i)), hnewest] at hbelow
    exact absurd hbelow (lt_irrefl _)

end Chains

/-! ## What an event leaves alone -/

section Frame

variable {s s' : Network ι} {i : ι}

theorem MessageOk.grows {message : Message ι} (h : s.MessageOk crypto genesis message)
    (hgrows : Grows s s') : s'.MessageOk crypto genesis message where
  started := h.started.trans_le (hgrows.length_own_le _)
  round_le := h.round_le.trans (hgrows.added _).length_le
  known k hk := (h.known k hk).trans_le (hgrows.length_own_le k)
  accepted := by
    rw [hgrows.chain h.round_le]
    exact h.accepted
  accounts := by
    rw [hgrows.chain h.round_le]
    exact h.accounts.grows hgrows h.known

theorem NodeOk.decided_grows (h : s.NodeOk crypto genesis pool i) (hgrows : Grows s s')
    {round : Nat} {block : CollectionBlock} (hblock : (s.added i)[round]? = some block) :
    s'.Decided crypto (s'.chain crypto genesis i round) round block := by
  rw [hgrows.chain (List.getElem?_eq_some_iff.1 hblock).1.le]
  exact (h.decided round block hblock).grows hgrows

/-- A node that stays in its round. While it negotiates, its block, its verdicts and what it is
counting stay as they are. -/
theorem NodeOk.stays (h : s.NodeOk crypto genesis pool i) (hgrows : Grows s s')
    (hadded : s'.added i = s.added i) (hown : s'.own i = s.own i) (hknows : s'.knows i = s.knows i)
    (hnode : NodeInv crypto (s'.nodes i))
    (hchain : (s'.nodes i).blockchain = (s.nodes i).blockchain)
    (hstate : (s'.nodes i).currentState = some .introduceBlock ↔
      (s.nodes i).currentState = some .introduceBlock)
    (hsame : (s.nodes i).currentState = some .introduceBlock →
      (s'.nodes i).newBlock = (s.nodes i).newBlock ∧
      (s'.nodes i).cycleStateIntroduceBlock.processedBlocks =
        (s.nodes i).cycleStateIntroduceBlock.processedBlocks ∧
      (s'.nodes i).cycleStateIntroduceBlock.transactionSubBlockCounter =
        (s.nodes i).cycleStateIntroduceBlock.transactionSubBlockCounter ∧
      (s'.nodes i).cycleStateIntroduceBlock.creationSubBlockCounter =
        (s.nodes i).cycleStateIntroduceBlock.creationSubBlockCounter) :
    s'.NodeOk crypto genesis pool i := by
  have hround : s'.round i = s.round i := congrArg List.length hadded
  refine ⟨hnode, ?_, ?_, ?_, ?_, ?_, fun hnegotiates => ?_⟩
  · rw [hround, hgrows.chain (le_refl _), hchain]
    exact h.chain
  · intro round block hblock
    rw [hadded] at hblock
    exact h.decided_grows hgrows hblock
  · rw [hown, hround, h.rounds, if_congr hstate rfl rfl]
  · rw [hown]
    exact h.pooled
  · intro round hlt
    rw [hown] at hlt
    have hle : round ≤ s.round i := by
      have hrounds := h.rounds
      split_ifs at hrounds <;> omega
    rw [hgrows.chain hle]
    exact h.affords round hlt
  -- What has been heard stays the same, and what others have made only grows.
  · have hold := hstate.1 hnegotiates
    obtain ⟨hnew, hprocessed, htransactions, hcreations⟩ := hsame hold
    obtain ⟨heard, hn⟩ := h.negotiating hold
    refine ⟨heard, fun block hblock => ?_, ?_, ?_, ?_, ?_⟩
    · obtain ⟨message, hmessage, heq⟩ := hn.heard_sent block hblock
      rw [hround]
      exact ⟨message, hgrows.sent message hmessage, heq⟩
    · rw [hknows, hround]
      exact fun k hk => (hn.known k hk).trans_le (hgrows.length_own_le k)
    · rw [hknows, hround, hchain, hnew]
      have haccounts := hn.accounts.grows hgrows hn.known
      exact ⟨by rw [htransactions]; exact haccounts.transactions,
        by rw [hcreations]; exact haccounts.creations⟩
    · rw [hprocessed]
      exact hn.processed
    · rw [hprocessed]
      exact hn.verdicts

/-- **The rule for events.** What happens at one node has to be looked at there and in the
messages it sends. -/
theorem Inv.of_node (h : s.Inv crypto genesis pool) (hgrows : Grows s s')
    (hothers : ∀ j, j ≠ i → s'.nodes j = s.nodes j ∧ s'.added j = s.added j ∧
      s'.own j = s.own j ∧ s'.knows j = s.knows j)
    (hnode : s'.NodeOk crypto genesis pool i)
    (hsent : ∀ message ∈ s'.sent, message ∈ s.sent ∨ s'.MessageOk crypto genesis message) :
    s'.Inv crypto genesis pool where
  tip := h.tip
  node j := by
    by_cases hj : j = i
    · rw [hj]
      exact hnode
    · obtain ⟨hnodes, hadded, hown, hknows⟩ := hothers j hj
      refine (h.node j).stays hgrows hadded hown hknows ?_ ?_ ?_ fun _ => ?_
      · rw [hnodes]
        exact (h.node j).node
      · rw [hnodes]
      · rw [hnodes]
      · rw [hnodes]
        exact ⟨rfl, rfl, rfl, rfl⟩
  message message hmessage :=
    (hsent message hmessage).elim (fun hold => (h.message message hold).grows hgrows) id

theorem NodeOk.messageOk (h : s.NodeOk crypto genesis pool i)
    (hstate : (s.nodes i).currentState = some .introduceBlock) :
    s.MessageOk crypto genesis
      { sender := i, block := (s.nodes i).newBlock, round := s.round i, knows := s.knows i } := by
  obtain ⟨heard, hn⟩ := h.negotiating hstate
  have hrounds := h.rounds
  rw [if_pos hstate] at hrounds
  refine ⟨?_, le_refl _, hn.known, ?_, ?_⟩
  · show s.round i < (s.own i).length
    omega
  · exact h.chain.accepts.1 (h.node.introduced hstate)
  · have haccounts := hn.accounts.sent
    rw [h.chain.getMiningState] at haccounts
    exact haccounts

/-- **The block of a node that knows everybody is the one all agree on.** -/
theorem NodeOk.decides (h : s.NodeOk crypto genesis pool i)
    (hstate : (s.nodes i).currentState = some .introduceBlock) (hknows : ∀ k, k ∈ s.knows i) :
    s.Decided crypto (s.chain crypto genesis i (s.round i)) (s.round i) (s.nodes i).newBlock := by
  obtain ⟨heard, hn⟩ := h.negotiating hstate
  have hall : (s.knows i : Set ι) = Set.univ := Set.eq_univ_of_forall hknows
  have haccounts := hn.accounts
  rw [hall, h.chain.getMiningState] at haccounts
  exact
    { accepted := h.chain.accepts.1 (h.node.introduced hstate)
      everybody := fun k => hn.known k (hknows k)
      transactions := haccounts.transactions.isSmallest
      creations := haccounts.creations.isSmallest }

end Frame

end Network

end SwabianCoin
