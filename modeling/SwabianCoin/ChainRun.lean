import SwabianCoin.Lib.Run
import SwabianCoin.Validation

/-!
# Runs of the blockchain

A run starts with `initEmptyChain`, on whatever the object held before, and goes on with any
sequence of calls, with rounds of `cacheThread` anywhere in between. In a `ChainRun` every
collection block is accepted in the state it is added to; baselines are established and
questions are asked at will.

`ChainRun.tipOk`: in every state of a run the newest block is there, under its own id, and the
next free id follows it.
-/

namespace SwabianCoin

open Machine

/-- The calls that answer a question. All but `validateBlock` are constant member functions, or
only look. -/
inductive ChainQuery where
  | validateBlock (block : CollectionBlock)
  | validateBaselineBlock (block : BaselineBlock)
  | validateBlockWithoutContext (block : BaselineBlock)
  | validateTransaction (subBlock : TransactionSubBlock)
  | validateCreation (subBlock : CreationSubBlock)
  | getBalance (publicKey : PublicKeyPEM)
  | getNumWallets
  | getMiningState

inductive ChainOp where
  | addBlock (block : CollectionBlock)
  | establishBaseline
  | cacheThread
  | query (question : ChainQuery)

namespace Blockchain

/-- The chain after a question. -/
def afterQuery (crypto : CryptoHelper) (bc : Blockchain) : ChainQuery → Blockchain
  | .validateBlock block => (bc.validateBlock crypto block).2
  | _ => bc

def step (crypto : CryptoHelper) (bc : Blockchain) : ChainOp → Blockchain
  | .addBlock block => bc.addBlock crypto block
  | .establishBaseline => bc.establishBaseline crypto
  | .cacheThread => { bc with cache := bc.cache.cacheThread }
  | .query question => bc.afterQuery crypto question

/-- Only accepted blocks are added. -/
def Admissible (crypto : CryptoHelper) (bc : Blockchain) : ChainOp → Prop
  | .addBlock block => bc.Accepts crypto block
  | _ => True

instance (crypto : CryptoHelper) (bc : Blockchain) : ∀ op, Decidable (Admissible crypto bc op)
  | .addBlock block => inferInstanceAs (Decidable (bc.Accepts crypto block))
  | .establishBaseline => inferInstanceAs (Decidable True)
  | .cacheThread => inferInstanceAs (Decidable True)
  | .query _ => inferInstanceAs (Decidable True)

theorem afterQuery_sameBalances (crypto : CryptoHelper) (bc : Blockchain) (question : ChainQuery) :
    SameBalances bc (bc.afterQuery crypto question) := by
  cases question with
  | validateBlock block => exact validateBlock_snd crypto bc block
  | _ => exact SameBalances.refl bc

end Blockchain

/-- `P` holds of the block, if the call adds one. -/
def OnAdd (P : Blockchain → CollectionBlock → Prop) (bc : Blockchain) : ChainOp → Prop
  | .addBlock block => P bc block
  | _ => True

/-- A run from `initEmptyChain` that adds only accepted blocks. -/
structure ChainRun (crypto : CryptoHelper) where
  /-- What the object held before, leftover files included. -/
  before : Blockchain
  ops : List ChainOp
  admissible : Run.AllSteps (Blockchain.step crypto) (Blockchain.Admissible crypto)
    (before.initEmptyChain crypto) ops

namespace ChainRun

variable {crypto : CryptoHelper} (run : ChainRun crypto)

/-- The state `initEmptyChain` leaves. -/
def start : Blockchain := run.before.initEmptyChain crypto

/-- `P` holds of every call and the state it meets. -/
def AllSteps (P : Blockchain → ChainOp → Prop) : Prop :=
  Run.AllSteps (Blockchain.step crypto) P run.start run.ops

/-- `I` holds of every state of the run. -/
def AllStates (I : Blockchain → Prop) : Prop :=
  Run.AllStates (Blockchain.step crypto) I run.start run.ops

/-- The state the run ends in. -/
def final : Blockchain := Run.exec (Blockchain.step crypto) run.start run.ops

end ChainRun

/-! ## The tip -/

/-- The newest block is there under its own id, the next free id follows it, and the blocks in
memory are stored under their ids. -/
structure TipOk (bc : Blockchain) : Prop where
  wellKeyed : bc.cache.WellKeyed
  newest : ∃ block, bc.getNewestBlock = some block ∧ block.header.blockUid = bc.getNewestBlockId
  next : bc.cache.nextFreeBlockId = bc.getNewestBlockId + 1
  /-- `0` is never looked up on disk, so it has to stay in memory. -/
  inMemory : bc.getNewestBlockId = 0 → bc.cache.cachedBlocks.size ≤ Cache.targetCacheSize
  blockType : bc.currentBaseline.header.genericHeader.blockType = .BaselineBlock

namespace TipOk

variable {crypto : CryptoHelper} {bc : Blockchain}

theorem of_root {cache : Cache} {block : BaselineBlock} {uid : BlockUid}
    (huid : block.header.blockUid = uid)
    (htype : block.header.genericHeader.blockType = .BaselineBlock) :
    TipOk
      { cache := (cache.resetCache uid).addBlock (.baseline block)
        currentBaseline := Hashed.withBlockHash block 0
        metaData := ⟨uid, uid⟩ } where
  wellKeyed := (Cache.wellKeyed_resetCache cache uid).addBlock huid htype
  newest := ⟨.baseline block, Cache.getBlock_addBlock_self (cache.resetCache uid) _, huid⟩
  next := rfl
  inMemory _ := by
    show 1 ≤ 10
    omega
  blockType := htype

theorem setRootBlock {block : BaselineBlock} (h0 : block.header.blockUid ≠ 0)
    (htype : block.header.genericHeader.blockType = .BaselineBlock) :
    TipOk (bc.setRootBlock block) := by
  rw [Blockchain.setRootBlock, if_neg h0]
  exact of_root rfl htype

theorem initEmptyChain (crypto : CryptoHelper) (bc : Blockchain) :
    TipOk (bc.initEmptyChain crypto) :=
  setRootBlock (show (1 : UInt64) ≠ 0 by decide) rfl

theorem establishBaseline (h : TipOk bc) : TipOk (bc.establishBaseline crypto) :=
  of_root rfl h.blockType

theorem sameBalances {bc' : Blockchain} (h : TipOk bc) (hs : Blockchain.SameBalances bc bc') :
    TipOk bc' where
  wellKeyed := by rw [hs.cache]; exact h.wellKeyed
  newest := by
    rw [hs.newest, Blockchain.getNewestBlockId, hs.metaData]
    exact h.newest
  next := by
    rw [hs.cache, Blockchain.getNewestBlockId, hs.metaData]
    exact h.next
  inMemory := by
    rw [hs.cache, Blockchain.getNewestBlockId, hs.metaData]
    exact h.inMemory
  blockType := by rw [hs.header]; exact h.blockType

/-- The newest block can be looked up before and after it is moved to disk. -/
theorem getNewestBlock_cacheThread (h : TipOk bc) :
    ({ bc with cache := bc.cache.cacheThread } : Blockchain).getNewestBlock =
      bc.getNewestBlock := by
  have hmem : bc.getNewestBlockId ≠ 0 ∨ bc.cache.cachedBlocks.size ≤ Cache.targetCacheSize :=
    or_iff_not_imp_left.2 fun h0 => h.inMemory (not_not.1 h0)
  exact Cache.getBlock_cacheThread h.wellKeyed hmem

theorem cacheThread (h : TipOk bc) : TipOk { bc with cache := bc.cache.cacheThread } where
  wellKeyed := h.wellKeyed.cacheThread
  newest := by
    obtain ⟨block, hb, huid⟩ := h.newest
    exact ⟨block, h.getNewestBlock_cacheThread.trans hb, huid⟩
  next := by
    show bc.cache.cacheThread.nextFreeBlockId = _
    rw [Cache.nextFreeBlockId_cacheThread]
    exact h.next
  inMemory h0 := by
    have hsize := h.inMemory h0
    rcases Cache.cacheThread_cases h.wellKeyed with heq | ⟨_, _, _, hlarge, _⟩
    · show bc.cache.cacheThread.cachedBlocks.size ≤ _
      rw [heq]
      exact hsize
    · omega
  blockType := h.blockType

theorem uid_of_accepts (h : TipOk bc) {block : CollectionBlock}
    (hacc : bc.Accepts crypto block) : block.header.blockUid = bc.cache.nextFreeBlockId := by
  obtain ⟨newest, hn, hc⟩ := hacc.contents
  obtain ⟨newest', hn', huid⟩ := h.newest
  rw [hn'] at hn
  cases hn
  rw [hc.uid, huid, h.next]

theorem toNat_uid_of_accepts (h : TipOk bc) {block : CollectionBlock}
    (hacc : bc.Accepts crypto block) :
    block.header.blockUid.toNat = bc.getNewestBlockId.toNat + 1 := by
  obtain ⟨_, -, hc⟩ := hacc.contents
  have huid := (h.uid_of_accepts hacc).trans h.next
  have h0 := hc.uid_ne_zero
  rw [huid] at h0 ⊢
  exact toNat_add_one h0

theorem updateCurrentBaseline_blockType (baseline : BaselineBlock) (uid : BlockUid)
    (block : CollectionBlock) :
    (updateCurrentBaseline crypto baseline uid block).header.genericHeader.blockType =
      baseline.header.genericHeader.blockType := by
  simp only [updateCurrentBaseline]
  split_ifs <;> rfl

/-- A block with the next free id, unless the ids have run out. -/
theorem addBlock_of_uid (h : TipOk bc) {block : CollectionBlock}
    (huid : block.header.blockUid = bc.cache.nextFreeBlockId)
    (htyped : (Block.collection block).WellTyped) (h0 : bc.cache.nextFreeBlockId ≠ 0) :
    TipOk (bc.addBlock crypto block) where
  wellKeyed := h.wellKeyed.addBlock huid htyped
  newest := ⟨.collection block, Cache.getBlock_addBlock_self _ _, huid⟩
  next := rfl
  inMemory hzero := absurd hzero h0
  blockType := (updateCurrentBaseline_blockType _ _ _).trans h.blockType

theorem addBlock (h : TipOk bc) {block : CollectionBlock} (hacc : bc.Accepts crypto block) :
    TipOk (bc.addBlock crypto block) := by
  have hc := hacc.contents.choose_spec.2
  have huid := h.uid_of_accepts hacc
  exact h.addBlock_of_uid huid hc.blockType (huid ▸ hc.uid_ne_zero)

theorem step {op : ChainOp} (h : TipOk bc) (hop : Blockchain.Admissible crypto bc op) :
    TipOk (bc.step crypto op) := by
  cases op with
  | addBlock block => exact h.addBlock hop
  | establishBaseline => exact h.establishBaseline
  | cacheThread => exact h.cacheThread
  | query question => exact h.sameBalances (Blockchain.afterQuery_sameBalances crypto bc question)

end TipOk

/-- **The newest block is never missing.** -/
theorem ChainRun.tipOk {crypto : CryptoHelper} (run : ChainRun crypto) : run.AllStates TipOk :=
  Run.AllStates.of_steps (fun _ _ h hop => h.step hop) (TipOk.initEmptyChain crypto run.before)
    run.admissible

end SwabianCoin
