import SwabianCoin.Ledger

/-!
# Asking must not change the answer

Two nodes with the same chain have to write the same baseline, whatever they have been asked in
the meantime. A run is compared with the run that only does what changes the chain. They write
the same baselines if every validated block leaves the wallets alone; a block that overdraws a
wallet nobody has heard of does not, although it is rejected.
-/

namespace SwabianCoin

/-- The calls that are meant to change the chain. -/
def ChainOp.changesChain : ChainOp → Bool
  | .addBlock _ => true
  | .establishBaseline => true
  | _ => false

/-- The baselines a run writes, in order. -/
def storedBaselines (crypto : CryptoHelper) : Blockchain → List ChainOp → List BaselineBlock
  | _, [] => []
  | bc, .establishBaseline :: ops =>
    bc.establishedBaseline crypto :: storedBaselines crypto (bc.establishBaseline crypto) ops
  | bc, op :: ops => storedBaselines crypto (bc.step crypto op) ops

/-- What holds of every baseline that a step would write holds of all baselines of the run. -/
theorem forall_mem_storedBaselines {crypto : CryptoHelper} {Q : BaselineBlock → Prop}
    {bc : Blockchain} {ops : List ChainOp}
    (h : Run.AllSteps (Blockchain.step crypto) (fun bc _ => Q (bc.establishedBaseline crypto))
      bc ops) : ∀ block ∈ storedBaselines crypto bc ops, Q block := by
  induction ops generalizing bc with
  | nil => exact fun _ hmem => absurd hmem List.not_mem_nil
  | cons op ops ih =>
    cases op with
    | establishBaseline => exact List.forall_mem_cons.2 ⟨h.1, ih h.2⟩
    | addBlock block => exact ih h.2
    | cacheThread => exact ih h.2
    | query question => exact ih h.2

/-- A question that leaves the wallets of the chain as they are. -/
def QuietQuery (crypto : CryptoHelper) (bc : Blockchain) : ChainOp → Prop
  | .query (.validateBlock block) => bc.LeavesWallets crypto block
  | _ => True

/-- Two chains that write the same baselines from now on. -/
structure SameBaseline (bc bc' : Blockchain) : Prop where
  currentBaseline : bc.currentBaseline = bc'.currentBaseline
  nextFreeBlockId : bc.cache.nextFreeBlockId = bc'.cache.nextFreeBlockId

namespace SameBaseline

variable {crypto : CryptoHelper} {bc bc' : Blockchain}

theorem setRootBlock {root : BaselineBlock} (hroot : root.header.blockUid ≠ 0)
    (bc bc' : Blockchain) : SameBaseline (bc.setRootBlock root) (bc'.setRootBlock root) := by
  unfold Blockchain.setRootBlock
  rw [if_neg hroot, if_neg hroot]
  exact ⟨rfl, rfl⟩

theorem addBlock (h : SameBaseline bc bc') (block : CollectionBlock) :
    SameBaseline (bc.addBlock crypto block) (bc'.addBlock crypto block) where
  currentBaseline := by
    simp only [Blockchain.addBlock]
    rw [h.currentBaseline, h.nextFreeBlockId]
  nextFreeBlockId := by
    show bc.cache.nextFreeBlockId + 1 = bc'.cache.nextFreeBlockId + 1
    rw [h.nextFreeBlockId]

theorem establishedBaseline (h : SameBaseline bc bc') :
    bc.establishedBaseline crypto = bc'.establishedBaseline crypto := by
  unfold Blockchain.establishedBaseline
  rw [h.currentBaseline]

theorem establishBaseline (h : SameBaseline bc bc') :
    SameBaseline (bc.establishBaseline crypto) (bc'.establishBaseline crypto) where
  currentBaseline := by
    show Hashed.withBlockHash (bc.establishedBaseline crypto) 0 =
      Hashed.withBlockHash (bc'.establishedBaseline crypto) 0
    rw [h.establishedBaseline]
  nextFreeBlockId := by
    show (bc.establishedBaseline crypto).header.blockUid + 1 =
      (bc'.establishedBaseline crypto).header.blockUid + 1
    rw [h.establishedBaseline]

/-- The background thread and a quiet question make no difference. -/
theorem of_quiet (h : SameBaseline bc bc') {op : ChainOp} (hop : op.changesChain = false)
    (hquiet : QuietQuery crypto bc op) : SameBaseline (bc.step crypto op) bc' := by
  cases op with
  | addBlock block => exact absurd hop (by simp [ChainOp.changesChain])
  | establishBaseline => exact absurd hop (by simp [ChainOp.changesChain])
  | cacheThread =>
    exact ⟨h.currentBaseline, (Cache.nextFreeBlockId_cacheThread bc.cache).trans h.nextFreeBlockId⟩
  | query question =>
    have hself : bc.afterQuery crypto question = bc := by
      cases question with
      | validateBlock block => exact Blockchain.validateBlock_snd_eq_self_iff.2 hquiet
      | _ => rfl
    show SameBaseline (bc.afterQuery crypto question) bc'
    rw [hself]
    exact h

end SameBaseline

theorem storedBaselines_filter {crypto : CryptoHelper} {ops : List ChainOp} {bc bc' : Blockchain}
    (h : SameBaseline bc bc')
    (hquiet : Run.AllSteps (Blockchain.step crypto) (QuietQuery crypto) bc ops) :
    storedBaselines crypto bc ops =
      storedBaselines crypto bc' (ops.filter ChainOp.changesChain) := by
  induction ops generalizing bc bc' with
  | nil => rfl
  | cons op ops ih =>
    obtain ⟨hop, hrest⟩ := hquiet
    cases op with
    | addBlock block => exact ih (h.addBlock block) hrest
    | establishBaseline =>
      exact congrArg₂ List.cons h.establishedBaseline (ih h.establishBaseline hrest)
    | cacheThread => exact ih (h.of_quiet rfl hop) hrest
    | query question => exact ih (h.of_quiet rfl hop) hrest

/-- **The baselines depend only on the chain**, as long as no validated block overdraws an unknown
wallet: two runs from one root that add the same blocks and establish baselines at the same points
write the same baselines, whatever questions stand in between. -/
theorem storedBaselines_eq_of_quiet (crypto : CryptoHelper) (root : BaselineBlock)
    (hroot : root.header.blockUid ≠ 0) (before before' : Blockchain) (ops ops' : List ChainOp)
    (hsame : ops.filter ChainOp.changesChain = ops'.filter ChainOp.changesChain)
    (hquiet : Run.AllSteps (Blockchain.step crypto) (QuietQuery crypto)
      (before.setRootBlock root) ops)
    (hquiet' : Run.AllSteps (Blockchain.step crypto) (QuietQuery crypto)
      (before'.setRootBlock root) ops') :
    storedBaselines crypto (before.setRootBlock root) ops =
      storedBaselines crypto (before'.setRootBlock root) ops' := by
  have hstart : SameBaseline (before.setRootBlock root) (before'.setRootBlock root) :=
    SameBaseline.setRootBlock hroot before before'
  have hstart' : SameBaseline (before'.setRootBlock root) (before'.setRootBlock root) := ⟨rfl, rfl⟩
  rw [storedBaselines_filter hstart hquiet, storedBaselines_filter hstart' hquiet', hsame]

namespace Sample

/-- A block in which a wallet that does not exist pays. -/
def overdraft : CollectionBlock := block root [payment root keyA keyB 1] []

/-- Nothing happens before the baseline is established. -/
def silentOps : List ChainOp := [.establishBaseline]

/-- A rejected block before the baseline is established. -/
def askedOps : List ChainOp := [.query (.validateBlock overdraft), .establishBaseline]

/-- A coin is mined, without questions. -/
def miningOps : List ChainOp := [.addBlock mining, .establishBaseline]

/-- The same with questions that leave nothing behind: the block is validated first. -/
def politeOps : List ChainOp :=
  [.query (.validateBlock mining), .query (.getBalance keyA), .addBlock mining, .cacheThread,
    .establishBaseline]

end Sample

/-- Two runs, one with questions, write the same baseline. -/
theorem storedBaselines_politeOps :
    storedBaselines .sample (({} : Blockchain).setRootBlock (Blockchain.emptyBaseline .sample))
        Sample.politeOps =
      storedBaselines .sample (({} : Blockchain).setRootBlock (Blockchain.emptyBaseline .sample))
        Sample.miningOps :=
  storedBaselines_eq_of_quiet .sample (Blockchain.emptyBaseline .sample) (by decide) {} {}
    Sample.politeOps Sample.miningOps rfl
    ⟨Blockchain.Accepts.leavesWallets (by decide +kernel), trivial, trivial, trivial, trivial,
      trivial⟩
    ⟨trivial, trivial, trivial⟩

/-- A rejected block changes the baseline, its hash included. -/
theorem rejected_block_changes_baseline :
    ¬ ((({} : Blockchain).initEmptyChain .sample).Accepts .sample Sample.overdraft) ∧
      (storedBaselines .sample (({} : Blockchain).setRootBlock (Blockchain.emptyBaseline .sample))
        Sample.askedOps).map (fun block => block.header.genericHeader.blockHash) ≠
      (storedBaselines .sample (({} : Blockchain).setRootBlock (Blockchain.emptyBaseline .sample))
        Sample.silentOps).map (fun block => block.header.genericHeader.blockHash) ∧
      ¬ ∀ (root : BaselineBlock) (before before' : Blockchain) (ops ops' : List ChainOp),
        root.header.blockUid ≠ 0 →
        ops.filter ChainOp.changesChain = ops'.filter ChainOp.changesChain →
        storedBaselines .sample (before.setRootBlock root) ops =
          storedBaselines .sample (before'.setRootBlock root) ops' := by
  have hdiffer : (storedBaselines .sample
      (({} : Blockchain).setRootBlock (Blockchain.emptyBaseline .sample))
        Sample.askedOps).map (fun block => block.header.genericHeader.blockHash) ≠
      (storedBaselines .sample (({} : Blockchain).setRootBlock (Blockchain.emptyBaseline .sample))
        Sample.silentOps).map (fun block => block.header.genericHeader.blockHash) := by
    decide +kernel
  refine ⟨by decide +kernel, hdiffer, ?_⟩
  intro h
  have heq := h (Blockchain.emptyBaseline .sample) {} {} Sample.askedOps Sample.silentOps
    (by decide) rfl
  exact hdiffer (congrArg _ heq)

end SwabianCoin
