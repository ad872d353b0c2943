import SwabianCoin.Rooted
import SwabianCoin.SignedOnce

/-!
# Joining equals participating

A node that establishes a baseline and a node that receives this baseline as its root should be
indistinguishable from then on. The two ways to the new root are different code. They leave the
same ids and the same current baseline (`SameChain`), whatever the two nodes had before, except
that `setRootBlock` refuses the invalid id `0`, which `establishBaseline` writes when the ids run
out.

After that both nodes get the same calls, while the background threads of their caches run on
their own.
-/

namespace SwabianCoin

open Machine

variable {crypto : CryptoHelper}

/-! ## Answers -/

/-- What a question can be answered with. -/
inductive ChainAnswer where
  | verdict (valid : Bool)
  | balance (fraction : UInt64)
  | numWallets (count : Nat)
  | miningState (state : MiningState)

namespace Blockchain

def answer (crypto : CryptoHelper) (bc : Blockchain) : ChainQuery → ChainAnswer
  | .validateBlock block => .verdict (bc.validateBlock crypto block).1
  | .validateBaselineBlock block => .verdict (validateBaselineBlock crypto bc block)
  | .validateBlockWithoutContext block => .verdict (validateBlockWithoutContext crypto block)
  | .validateTransaction subBlock => .verdict (bc.validateTransaction crypto subBlock)
  | .validateCreation subBlock => .verdict (bc.validateCreation crypto subBlock)
  | .getBalance publicKey => .balance (bc.getBalance publicKey)
  | .getNumWallets => .numWallets bc.getNumWallets
  | .getMiningState => .miningState bc.getMiningState

/-- The ids from the root to the newest block, round the corner if need be. -/
def HoldsId (bc : Blockchain) (uid : BlockUid) : Prop :=
  uid - bc.getRootBlockId ≤ bc.getNewestBlockId - bc.getRootBlockId

end Blockchain

/-! ## Two nodes -/

/-- Something happens to the two nodes. -/
inductive PairEvent where
  /-- Both get the same call. -/
  | both (op : ChainOp)
  /-- A round of the first node's `cacheThread`. -/
  | cacheThreadFirst
  | cacheThreadSecond

def pairStep (crypto : CryptoHelper) (nodes : Blockchain × Blockchain) :
    PairEvent → Blockchain × Blockchain
  | .both op => (nodes.1.step crypto op, nodes.2.step crypto op)
  | .cacheThreadFirst => (nodes.1.step crypto .cacheThread, nodes.2)
  | .cacheThreadSecond => (nodes.1, nodes.2.step crypto .cacheThread)

/-- What `cacheThread` relies on when it moves a block: `Cache::addBlock` asserts that blocks
carry their ids, and no block has the invalid id. -/
def MovesSafely (bc : Blockchain) : Prop :=
  bc.cache.WellKeyed ∧ 0 ∉ bc.cache.cachedBlocks.keys

instance (bc : Blockchain) : Decidable (MovesSafely bc) := inferInstanceAs (Decidable (_ ∧ _))

/-- The background threads find the blocks in memory as `Cache::addBlock` asserts them. -/
def PairAdmissible (nodes : Blockchain × Blockchain) : PairEvent → Prop
  | .both .cacheThread => MovesSafely nodes.1 ∧ MovesSafely nodes.2
  | .both _ => True
  | .cacheThreadFirst => MovesSafely nodes.1
  | .cacheThreadSecond => MovesSafely nodes.2

theorem MovesSafely.getBlock_cacheThread {bc : Blockchain} (h : MovesSafely bc) (uid : BlockUid) :
    bc.cache.cacheThread.getBlock uid = bc.cache.getBlock uid := by
  by_cases h0 : uid = 0
  · subst h0
    have hnone (cache : Cache) (hkeys : 0 ∉ cache.cachedBlocks.keys) : cache.getBlock 0 = none := by
      unfold Cache.getBlock
      rw [OrdMap.find?_eq_none_iff.2 hkeys]
      rfl
    rw [hnone _ h.2]
    refine hnone _ fun hmem => h.2 ?_
    rcases Cache.cacheThread_cases h.1 with heq | ⟨k, block, -, -, heq⟩ <;> rw [heq] at hmem
    · exact hmem
    · exact (OrdMap.mem_keys_erase.1 hmem).2
  · exact Cache.getBlock_cacheThread h.1 (Or.inl h0)

instance (nodes : Blockchain × Blockchain) : ∀ event, Decidable (PairAdmissible nodes event)
  | .both .cacheThread => inferInstanceAs (Decidable (_ ∧ _))
  | .both (.addBlock _) => inferInstanceAs (Decidable True)
  | .both .establishBaseline => inferInstanceAs (Decidable True)
  | .both (.query _) => inferInstanceAs (Decidable True)
  | .cacheThreadFirst => inferInstanceAs (Decidable (MovesSafely _))
  | .cacheThreadSecond => inferInstanceAs (Decidable (MovesSafely _))

/-- The chains of the two nodes cannot be told apart. What else is on their disks may differ. -/
structure SameChain (bc bc' : Blockchain) : Prop where
  rootBlockId : bc'.getRootBlockId = bc.getRootBlockId
  newestBlockId : bc'.getNewestBlockId = bc.getNewestBlockId
  nextFreeBlockId : bc'.cache.nextFreeBlockId = bc.cache.nextFreeBlockId
  next : bc.cache.nextFreeBlockId = bc.getNewestBlockId + 1
  currentBaseline : bc'.currentBaseline = bc.currentBaseline
  blocks : ∀ uid, bc.HoldsId uid →
    ∃ block, bc.getBlock uid = some block ∧ bc'.getBlock uid = some block

namespace SameChain

variable {bc bc' : Blockchain}

/-- **Both ways to a new root.** -/
theorem of_root (cache cache' : Cache) (block : BaselineBlock) (uid : BlockUid) :
    SameChain
      { cache := (cache.resetCache uid).addBlock (.baseline block)
        currentBaseline := Hashed.withBlockHash block 0
        metaData := ⟨uid, uid⟩ }
      { cache := (cache'.resetCache uid).addBlock (.baseline block)
        currentBaseline := Hashed.withBlockHash block 0
        metaData := ⟨uid, uid⟩ } where
  rootBlockId := rfl
  newestBlockId := rfl
  nextFreeBlockId := rfl
  next := rfl
  currentBaseline := rfl
  blocks k hk := by
    have hle : k - uid ≤ uid - uid := hk
    rw [UInt64.sub_self] at hle
    have hzero : k - uid = 0 := UInt64.le_zero_iff.1 hle
    have heq : k = uid := by
      have hadd := congrArg (· + uid) hzero
      simpa using hadd
    subst heq
    exact ⟨.baseline block, Cache.getBlock_addBlock_self (cache.resetCache k) _,
      Cache.getBlock_addBlock_self (cache'.resetCache k) _⟩

theorem join (hne : bc.currentBaseline.header.blockUid ≠ 0) :
    SameChain (bc.establishBaseline crypto)
      (bc'.setRootBlock (bc.establishedBaseline crypto)) := by
  have huid : (bc.establishedBaseline crypto).header.blockUid ≠ 0 := hne
  rw [Blockchain.setRootBlock, if_neg huid]
  exact of_root bc.cache bc'.cache (bc.establishedBaseline crypto) _

theorem newestBlock (h : SameChain bc bc') : bc'.getNewestBlock = bc.getNewestBlock := by
  obtain ⟨block, hblock, hblock'⟩ := h.blocks bc.getNewestBlockId (UInt64.le_refl _)
  unfold Blockchain.getNewestBlock
  rw [h.newestBlockId, hblock, hblock']

/-- **The same answers.** -/
theorem answer (h : SameChain bc bc') (question : ChainQuery) :
    bc'.answer crypto question = bc.answer crypto question := by
  have hnewest := h.newestBlock
  have hmining : bc'.getMiningState = bc.getMiningState :=
    congrArg BaselineBlock.miningState h.currentBaseline
  have hhashes : bc'.dataValueHashesOfEpoch = bc.dataValueHashesOfEpoch :=
    congrArg (fun baseline => baseline.dataValueHashes.getLastD []) h.currentBaseline
  unfold Blockchain.answer
  cases question with
  | validateBlock block =>
    unfold Blockchain.validateBlock checkContents
    rw [hnewest, hmining, hhashes, h.currentBaseline]
    cases bc.getNewestBlock with
    | none => rfl
    | some newest =>
      dsimp only
      split_ifs <;> rfl
  | validateBaselineBlock block =>
    unfold validateBaselineBlock
    rw [hnewest]
  | validateBlockWithoutContext block => rfl
  | validateTransaction subBlock =>
    unfold Blockchain.validateTransaction
    rw [hnewest]
  | validateCreation subBlock =>
    unfold Blockchain.validateCreation
    rw [hnewest, hmining, hhashes]
  | getBalance publicKey =>
    unfold Blockchain.getBalance
    rw [h.currentBaseline]
  | getNumWallets =>
    unfold Blockchain.getNumWallets
    rw [h.currentBaseline]
  | getMiningState => rw [hmining]

/-! ## One event -/

theorem addBlock (h : SameChain bc bc') (block : CollectionBlock) :
    SameChain (bc.addBlock crypto block) (bc'.addBlock crypto block) where
  rootBlockId := h.rootBlockId
  newestBlockId := h.nextFreeBlockId
  nextFreeBlockId := congrArg (· + 1) h.nextFreeBlockId
  next := rfl
  currentBaseline := by
    simp only [Blockchain.addBlock]
    rw [h.currentBaseline, h.nextFreeBlockId]
  blocks uid huid := by
    by_cases hnew : uid = bc.cache.nextFreeBlockId
    · subst hnew
      refine ⟨.collection block, Cache.getBlock_addBlock_self bc.cache _, ?_⟩
      have hself := Cache.getBlock_addBlock_self bc'.cache (.collection block)
      rw [h.nextFreeBlockId] at hself
      exact hself
    · -- Every other id was held before.
      have hold : bc.HoldsId uid := by
        have hle : uid - bc.getRootBlockId ≤ bc.cache.nextFreeBlockId - bc.getRootBlockId := huid
        rw [h.next] at hle hnew
        exact sub_le_of_ne_succ hle hnew
      obtain ⟨old, hold, hold'⟩ := h.blocks uid hold
      refine ⟨old, (Cache.getBlock_addBlock_of_ne hnew).trans hold, ?_⟩
      rw [← h.nextFreeBlockId] at hnew
      exact (Cache.getBlock_addBlock_of_ne hnew).trans hold'

theorem establishBaseline (h : SameChain bc bc') :
    SameChain (bc.establishBaseline crypto) (bc'.establishBaseline crypto) := by
  unfold Blockchain.establishBaseline Blockchain.establishedBaseline
  rw [h.currentBaseline]
  exact of_root bc.cache bc'.cache _ _

theorem withWallets (h : SameChain bc bc') (wallets : Wallets) :
    SameChain (bc.withWallets wallets) (bc'.withWallets wallets) where
  rootBlockId := h.rootBlockId
  newestBlockId := h.newestBlockId
  nextFreeBlockId := h.nextFreeBlockId
  next := h.next
  currentBaseline := by
    simp only [Blockchain.withWallets]
    rw [h.currentBaseline]
  blocks := h.blocks

theorem afterQuery (h : SameChain bc bc') (question : ChainQuery) :
    SameChain (bc.afterQuery crypto question) (bc'.afterQuery crypto question) := by
  cases question with
  | validateBlock block =>
    have hmining : bc'.getMiningState = bc.getMiningState :=
      congrArg BaselineBlock.miningState h.currentBaseline
    have hhashes : bc'.dataValueHashesOfEpoch = bc.dataValueHashesOfEpoch :=
      congrArg (fun baseline => baseline.dataValueHashes.getLastD []) h.currentBaseline
    have hcontents (newest : Block) :
        checkContents crypto bc' block newest = checkContents crypto bc block newest := by
      unfold checkContents
      rw [hmining, hhashes]
    unfold Blockchain.afterQuery Blockchain.validateBlock
    rw [h.newestBlock, h.currentBaseline]
    cases bc.getNewestBlock with
    | none => exact h
    | some newest =>
      dsimp only
      rw [hcontents]
      split_ifs
      · exact h.withWallets _
      · exact h
  | _ => exact h

theorem cacheThread_left (h : SameChain bc bc') (hsafe : MovesSafely bc) :
    SameChain { bc with cache := bc.cache.cacheThread } bc' where
  rootBlockId := h.rootBlockId
  newestBlockId := h.newestBlockId
  nextFreeBlockId := h.nextFreeBlockId.trans (Cache.nextFreeBlockId_cacheThread bc.cache).symm
  next := (Cache.nextFreeBlockId_cacheThread bc.cache).trans h.next
  currentBaseline := h.currentBaseline
  blocks uid huid := by
    obtain ⟨block, hblock, hblock'⟩ := h.blocks uid huid
    exact ⟨block, (hsafe.getBlock_cacheThread uid).trans hblock, hblock'⟩

theorem cacheThread_right (h : SameChain bc bc') (hsafe : MovesSafely bc') :
    SameChain bc { bc' with cache := bc'.cache.cacheThread } where
  rootBlockId := h.rootBlockId
  newestBlockId := h.newestBlockId
  nextFreeBlockId := (Cache.nextFreeBlockId_cacheThread bc'.cache).trans h.nextFreeBlockId
  next := h.next
  currentBaseline := h.currentBaseline
  blocks uid huid := by
    obtain ⟨block, hblock, hblock'⟩ := h.blocks uid huid
    exact ⟨block, hblock, (hsafe.getBlock_cacheThread uid).trans hblock'⟩

theorem step {nodes : Blockchain × Blockchain} (h : SameChain nodes.1 nodes.2) (event : PairEvent)
    (hadmissible : PairAdmissible nodes event) :
    SameChain (pairStep crypto nodes event).1 (pairStep crypto nodes event).2 := by
  cases event with
  | both op =>
    cases op with
    | addBlock block => exact h.addBlock block
    | establishBaseline => exact h.establishBaseline
    | cacheThread =>
      exact (h.cacheThread_left hadmissible.1).cacheThread_right hadmissible.2
    | query question => exact h.afterQuery question
  | cacheThreadFirst => exact h.cacheThread_left hadmissible
  | cacheThreadSecond => exact h.cacheThread_right hadmissible

end SameChain

/-- **Joining equals participating.** One node establishes a baseline whose id is not `0`, another
one gets that baseline as its root. Whatever happens to both afterwards, their chains are the
same and they give the same answers. -/
theorem joining_equals_participating (crypto : CryptoHelper) (bc bc' : Blockchain)
    (hne : bc.currentBaseline.header.blockUid ≠ 0) (events : List PairEvent)
    (hadmissible : Run.AllSteps (pairStep crypto) PairAdmissible
      (bc.establishBaseline crypto, bc'.setRootBlock (bc.establishedBaseline crypto)) events) :
    Run.AllStates (pairStep crypto)
      (fun nodes => SameChain nodes.1 nodes.2 ∧
        nodes.2.establishedBaseline crypto = nodes.1.establishedBaseline crypto ∧
        ∀ question, nodes.2.answer crypto question = nodes.1.answer crypto question)
      (bc.establishBaseline crypto, bc'.setRootBlock (bc.establishedBaseline crypto)) events := by
  have hsame : Run.AllStates (pairStep crypto) (fun nodes => SameChain nodes.1 nodes.2)
      (bc.establishBaseline crypto, bc'.setRootBlock (bc.establishedBaseline crypto)) events :=
    Run.AllStates.of_steps (fun _ event h hop => h.step event hop) (SameChain.join hne) hadmissible
  exact hsame.mono fun nodes h =>
    ⟨h, congrArg crypto.fillHash h.currentBaseline, fun question => h.answer question⟩

namespace Sample

/-- Both nodes judge a block and add it, and the caches run in between. -/
def afterJoining : List PairEvent :=
  let next := block (.baseline (minedChain.establishedBaseline .sample)) [] []
  [.both (.query (.validateBlock next)), .both (.addBlock next), .cacheThreadFirst,
    .both .establishBaseline, .cacheThreadSecond]

/-- An empty root with the last id but one. -/
def lastButOneRoot : BaselineBlock :=
  CryptoHelper.sample.fillHash
    { header :=
        { genericHeader := { blockType := .BaselineBlock }, blockUid := 18446744073709551614 }
      miningState := {}
      dataValueHashes := [[]]
      wallets := ∅ }

/-- A block with the last id is added. -/
def lastIdRun : RootedRun .sample where
  root := lastButOneRoot
  valid := by decide +kernel
  before := {}
  ops := [.addBlock (block (.baseline lastButOneRoot) [] [])]
  admissible := ⟨by decide +kernel, trivial⟩

end Sample

/-- A chain that established a baseline and one that joined go on together. -/
theorem joined_after_mining :
    Sample.minedChain.currentBaseline.header.blockUid = 3 ∧
      Run.AllStates (pairStep .sample)
        (fun nodes => SameChain nodes.1 nodes.2 ∧
          nodes.2.establishedBaseline .sample = nodes.1.establishedBaseline .sample ∧
          ∀ question, nodes.2.answer .sample question = nodes.1.answer .sample question)
        (Sample.minedChain.establishBaseline .sample,
          ({} : Blockchain).setRootBlock (Sample.minedChain.establishedBaseline .sample))
        Sample.afterJoining :=
  ⟨by decide +kernel, joining_equals_participating .sample Sample.minedChain {} (by decide +kernel)
    Sample.afterJoining (by decide +kernel)⟩

/-- After the last id, one node establishes a baseline with the id `0`. Another node refuses it. -/
theorem baseline_zero_refused :
    ¬ ∀ (run : RootedRun .sample) (bc' : Blockchain),
      (bc'.setRootBlock (run.final.establishedBaseline .sample)).getNewestBlockId =
        (run.final.establishBaseline .sample).getNewestBlockId := by
  intro h
  exact absurd (h Sample.lastIdRun (({} : Blockchain).initEmptyChain .sample)) (by decide +kernel)

end SwabianCoin
