import SwabianCoin.Grid
import SwabianCoin.Introduced
import SwabianCoin.Joining
import SwabianCoin.Lib.Summary

/-!
# A network of nodes

Any number of nodes go through their cycles, each at its own pace. What a node propagates is sent
to all others; a message arrives at a node late, several times or never, and messages overtake
each other.

The network keeps some records. Nothing is decided by them.

* `added` — the blocks a node has added to its chain. Their number is the *round* the node is in.
* `own` — the blocks a node has started its negotiations with, one for each round.
* `knows` — the nodes whose own blocks have been taken into account. A node begins with itself and
  learns what the sender of a block knew, if it takes everything in the block at once
  (`TakesAtOnce`).

`Decided` says what a block has to be in order to be the one the nodes agree on in a round.
-/

namespace SwabianCoin

open Machine

variable {ι : Type}

/-! ## Messages and events -/

/-- A block on its way, with what its sender knew. -/
structure Message (ι : Type) where
  sender : ι
  block : CollectionBlock
  round : Nat
  knows : Finset ι

/-- The nodes, the messages that were ever sent, and what each node is known to have added. -/
structure Network (ι : Type) where
  nodes : ι → BlockchainManager
  sent : List (Message ι) := []
  added : ι → List CollectionBlock := fun _ => []
  own : ι → List CollectionBlock := fun _ => []
  knows : ι → Finset ι := fun _ => ∅

/-- Something happens at a node, or a message arrives, perhaps again. -/
inductive NetworkEvent (ι : Type) where
  /-- Something happens to a node. -/
  | act (i : ι) (event : ManagerEvent)
  /-- The message with this number arrives. -/
  | deliver (i : ι) (number : Nat) (now : BlockchainTime)

/-- The block an effect sends. -/
def Effect.propagated : Effect → Option CollectionBlock
  | .propagateBlock block => some block
  | .addBlock _ | .reportViolation _ _ | .banPeer _ | .transactionVote _ | .creationVote _ => none

/-- The block an effect adds to the chain. -/
def Effect.added : Effect → Option CollectionBlock
  | .addBlock block => some block
  | _ => none

/-- The block is one of the current negotiation, one peer is enough and nothing is being counted:
all its sub-blocks are taken at once. -/
def BlockchainManager.TakesAtOnce (m : BlockchainManager) (block : CollectionBlock) : Prop :=
  m.currentState = some .introduceBlock ∧ block.header.blockUid = m.newBlock.header.blockUid ∧
    m.cycleStateIntroduceBlock.threshold = 1 ∧ m.cycleStateIntroduceBlock.CountersEmpty

instance (m : BlockchainManager) (block : CollectionBlock) : Decidable (m.TakesAtOnce block) :=
  inferInstanceAs (Decidable (_ ∧ _))

namespace Network

section Step

variable [DecidableEq ι] (crypto : CryptoHelper) (peerId : ι → PeerId) (s : Network ι)

/-- An event at a node. -/
def act (i : ι) (event : ManagerEvent) : Network ι :=
  let result := (s.nodes i).act crypto event
  let opens := (s.nodes i).currentState ≠ some .introduceBlock ∧
    result.1.currentState = some .introduceBlock
  let added := s.added i ++ result.2.filterMap Effect.added
  let knows := if opens then {i} else s.knows i
  { nodes := Function.update s.nodes i result.1
    sent := s.sent ++ (result.2.filterMap Effect.propagated).map fun block =>
      { sender := i, block, round := added.length, knows }
    added := Function.update s.added i added
    own := Function.update s.own i (s.own i ++ if opens then [result.1.newBlock] else [])
    knows := Function.update s.knows i knows }

/-- A message arrives. -/
def deliver (i : ι) (message : Message ι) (now : BlockchainTime) : Network ι :=
  { s with
    nodes := Function.update s.nodes i ((s.nodes i).step crypto
      (.collectionBlockReceived (peerId message.sender) message.block false now))
    knows := Function.update s.knows i
      (if (s.nodes i).TakesAtOnce message.block then s.knows i ∪ message.knows else s.knows i) }

def step : NetworkEvent ι → Network ι
  | .act i event => s.act crypto i event
  | .deliver i number now =>
    match s.sent[number]? with
    | none => s
    | some message => s.deliver crypto peerId i message now

/-- What an event does besides changing the state of the node it happens to. -/
def effects : NetworkEvent ι → List Effect
  | .act i event => (s.nodes i).effects crypto event
  | .deliver i number now =>
    match s.sent[number]? with
    | none => []
    | some message => (s.nodes i).effects crypto
        (.collectionBlockReceived (peerId message.sender) message.block false now)

end Step

end Network

/-! ## Chains -/

/-- The chain after a round: a block is added, and a baseline established if it is time for one. -/
def Blockchain.extend (crypto : CryptoHelper) (bc : Blockchain) (block : CollectionBlock) :
    Blockchain :=
  if isBaselineBlock (bc.getNewestBlockId + 2) then
    (bc.addBlock crypto block).establishBaseline crypto
  else bc.addBlock crypto block

theorem SameChain.symm {bc bc' : Blockchain} (h : SameChain bc bc') : SameChain bc' bc where
  rootBlockId := h.rootBlockId.symm
  newestBlockId := h.newestBlockId.symm
  nextFreeBlockId := h.nextFreeBlockId.symm
  next := by rw [h.nextFreeBlockId, h.newestBlockId, h.next]
  currentBaseline := h.currentBaseline.symm
  blocks uid huid := by
    rw [Blockchain.HoldsId, h.rootBlockId, h.newestBlockId] at huid
    obtain ⟨block, hblock, hblock'⟩ := h.blocks uid huid
    exact ⟨block, hblock', hblock⟩

theorem SameChain.trans {bc bc' bc'' : Blockchain} (h : SameChain bc bc')
    (h' : SameChain bc' bc'') : SameChain bc bc'' where
  rootBlockId := h'.rootBlockId.trans h.rootBlockId
  newestBlockId := h'.newestBlockId.trans h.newestBlockId
  nextFreeBlockId := h'.nextFreeBlockId.trans h.nextFreeBlockId
  next := h.next
  currentBaseline := h'.currentBaseline.trans h.currentBaseline
  blocks uid huid := by
    obtain ⟨block, hblock, hblock'⟩ := h.blocks uid huid
    rw [Blockchain.HoldsId, ← h.rootBlockId, ← h.newestBlockId] at huid
    obtain ⟨other, hother, hother'⟩ := h'.blocks uid huid
    rw [hblock'] at hother
    cases hother
    exact ⟨block, hblock, hother'⟩

section SameChain

variable {crypto : CryptoHelper} {bc bc' : Blockchain}

theorem SameChain.accepts (h : SameChain bc bc') {block : CollectionBlock} :
    bc'.Accepts crypto block ↔ bc.Accepts crypto block := by
  have hanswer : bc'.answer crypto (.validateBlock block) =
      bc.answer crypto (.validateBlock block) := h.answer (.validateBlock block)
  simp only [Blockchain.answer, ChainAnswer.verdict.injEq] at hanswer
  rw [Blockchain.Accepts, Blockchain.Accepts, hanswer]

theorem SameChain.getMiningState (h : SameChain bc bc') :
    bc'.getMiningState = bc.getMiningState :=
  congrArg BaselineBlock.miningState h.currentBaseline

theorem SameChain.affords (h : SameChain bc bc') {block : CollectionBlock} :
    bc'.Affords block ↔ bc.Affords block := by
  have hbalance : bc'.getBalance = bc.getBalance := by
    funext key
    unfold Blockchain.getBalance
    rw [h.currentBaseline]
  rw [Blockchain.Affords, Blockchain.Affords, hbalance]

theorem SameChain.extend (h : SameChain bc bc') (block : CollectionBlock) :
    SameChain (bc.extend crypto block) (bc'.extend crypto block) := by
  unfold Blockchain.extend
  rw [h.newestBlockId]
  split_ifs
  · exact (h.addBlock block).establishBaseline
  · exact h.addBlock block

theorem TipOk.extend (h : TipOk bc) {block : CollectionBlock} (haccepts : bc.Accepts crypto block) :
    TipOk (bc.extend crypto block) := by
  unfold Blockchain.extend
  split_ifs
  · exact (h.addBlock haccepts).establishBaseline
  · exact h.addBlock haccepts

/-- Ids do not come back. -/
theorem TipOk.newestBlockId_lt_extend (h : TipOk bc) {block : CollectionBlock}
    (haccepts : bc.Accepts crypto block) :
    bc.getNewestBlockId < (bc.extend crypto block).getNewestBlockId := by
  have huid := h.toNat_uid_of_accepts haccepts
  rw [h.uid_of_accepts haccepts] at huid
  unfold Blockchain.extend
  rw [UInt64.lt_iff_toNat_lt]
  split_ifs with hbaseline
  · have hnewest : ((bc.addBlock crypto block).establishBaseline crypto).getNewestBlockId =
        bc.getNewestBlockId + 2 := by
      have hheader : (bc.addBlock crypto block).currentBaseline.header.blockUid =
          bc.cache.nextFreeBlockId + 1 := by
        simp only [Blockchain.addBlock, updateCurrentBaseline]
        split_ifs <;> rfl
      show (bc.addBlock crypto block).currentBaseline.header.blockUid = _
      rw [hheader, h.next, UInt64.add_assoc]
      rfl
    have hne := ne_zero_of_isBaselineBlock hbaseline
    rw [hnewest]
    rw [h.next] at huid
    rw [show bc.getNewestBlockId + 2 = bc.getNewestBlockId + 1 + 1 by
      rw [UInt64.add_assoc]; rfl] at hne ⊢
    rw [toNat_add_one hne, huid]
    omega
  · show bc.getNewestBlockId.toNat < bc.cache.nextFreeBlockId.toNat
    omega

theorem Blockchain.Accepts.eq {block block' : CollectionBlock}
    (h : bc.Accepts crypto block) (h' : bc.Accepts crypto block')
    (htransactions : block.transactions = block'.transactions)
    (hcreations : block.creations = block'.creations) : block = block' := by
  obtain ⟨newest, hn, hc⟩ := h.contents
  obtain ⟨newest', hn', hc'⟩ := h'.contents
  rw [hn] at hn'
  cases hn'
  rw [← refillHash_eq_self crypto hc.hash, ← refillHash_eq_self crypto hc'.hash]
  refine refillHash_congr crypto ?_ ?_ ?_ htransactions hcreations
  · rw [hc.uid, hc'.uid]
  · rw [hc.previous, hc'.previous]
  · rw [hc.blockType, hc'.blockType]

end SameChain

/-! ## Rounds -/

namespace Network

variable (crypto : CryptoHelper) (genesis : Blockchain) (s : Network ι)

/-- The chain of a node after so many rounds. -/
def chain (i : ι) (round : Nat) : Blockchain :=
  ((s.added i).take round).foldl (Blockchain.extend crypto) genesis

/-- The round a node is in. -/
def round (i : ι) : Nat := (s.added i).length

/-- The sub-blocks some nodes have started a round with. -/
def proposed {β : Type} (subBlocks : CollectionBlock → OrdMap Hash β) (round : Nat) (K : Set ι) :
    Set (Hash × β) :=
  {entry | ∃ i ∈ K, ∃ block, (s.own i)[round]? = some block ∧ entry ∈ subBlocks block}

/-- The block every node adds in a round: it is valid on the chain so far, everybody has started
the round, and it has the smallest transactions and creations of all that were proposed, where a
creation with the data value of a lower one does not count. -/
structure Decided (bc : Blockchain) (round : Nat) (block : CollectionBlock) : Prop where
  accepted : bc.Accepts crypto block
  everybody : ∀ i, round < (s.own i).length
  transactions : IsSmallest maxNumTransactions.toNat
    (Lowest Prod.fst (s.proposed CollectionBlock.transactions round Set.univ)) block.transactions
  creations : IsSmallest (creationsLeft bc.getMiningState)
    (Lowest (fun entry => entry.2.dataValue)
      (s.proposed CollectionBlock.creations round Set.univ)) block.creations

variable {crypto genesis s}

/-- **There is only one such block.** -/
theorem Decided.unique {bc : Blockchain} {round : Nat} {block block' : CollectionBlock}
    (h : s.Decided crypto bc round block) (h' : s.Decided crypto bc round block') :
    block = block' :=
  h.accepted.eq h'.accepted (h.transactions.unique h'.transactions)
    (h.creations.unique h'.creations)

end Network

end SwabianCoin
