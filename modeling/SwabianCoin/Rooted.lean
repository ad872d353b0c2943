import SwabianCoin.Conservation

/-!
# Runs from a fetched root

A node that joins later gets its root from a peer. A `RootedRun` starts with `setRootBlock` of any
baseline that passes `validateBlockWithoutContext` and goes on as a `ChainRun` does.

The blocks after such a root write into `data_value_hashes[epoch]`. The check of a root compares
the number of lists with `epoch + 1` in 64-bit arithmetic, so a root of the last epoch has no list
at all, and a block that enters the last epoch leaves none.
-/

namespace SwabianCoin

/-- A run from a valid root that adds only accepted blocks. -/
structure RootedRun (crypto : CryptoHelper) where
  root : BaselineBlock
  valid : validateBlockWithoutContext crypto root = true
  /-- What the object held before, leftover files included. -/
  before : Blockchain
  ops : List ChainOp
  admissible : Run.AllSteps (Blockchain.step crypto) (Blockchain.Admissible crypto)
    (before.setRootBlock root) ops

namespace RootedRun

variable {crypto : CryptoHelper} (run : RootedRun crypto)

/-- The state `setRootBlock` leaves. -/
def start : Blockchain := run.before.setRootBlock run.root

/-- `P` holds of every call and the state it meets. -/
def AllSteps (P : Blockchain → ChainOp → Prop) : Prop :=
  Run.AllSteps (Blockchain.step crypto) P run.start run.ops

/-- `I` holds of every state of the run. -/
def AllStates (I : Blockchain → Prop) : Prop :=
  Run.AllStates (Blockchain.step crypto) I run.start run.ops

/-- The state at the end. -/
def final : Blockchain := Run.exec (Blockchain.step crypto) run.start run.ops

theorem uid_ne_zero : run.root.header.blockUid ≠ 0 :=
  (validateBlockWithoutContext_header run.valid).2

theorem start_eq :
    run.start =
      { cache := (run.before.cache.resetCache run.root.header.blockUid).addBlock
          (.baseline run.root)
        currentBaseline := Hashed.withBlockHash run.root 0
        metaData := ⟨run.root.header.blockUid, run.root.header.blockUid⟩ } := by
  rw [start, Blockchain.setRootBlock, if_neg run.uid_ne_zero]
  rfl

theorem tipOk : run.AllStates TipOk :=
  Run.AllStates.of_steps (fun _ _ h hop => h.step hop)
    (TipOk.setRootBlock run.uid_ne_zero (validateBlockWithoutContext_header run.valid).1)
    run.admissible

end RootedRun

/-! ## The list of the current epoch -/

/-- The list of the current epoch is there: `data_value_hashes` is not empty, and the epoch is an
index into it. -/
def EpochListed (bc : Blockchain) : Prop :=
  bc.getMiningState.epoch.toNat < bc.currentBaseline.dataValueHashes.length ∧
    bc.currentBaseline.dataValueHashes ≠ []

/-- There are as many lists as `epoch + 1` comes out to. -/
def EpochsCounted (bc : Blockchain) : Prop :=
  bc.currentBaseline.dataValueHashes.length = (bc.getMiningState.epoch + 1).toNat

/-- The last value of the counter. -/
def lastEpoch : Epoch := 18446744073709551615

/-- The block brings the epoch to its end. -/
def EndsEpoch (bc : Blockchain) (block : CollectionBlock) : Prop :=
  (bc.getMiningState.numMiningsInEpoch + Int32.ofNat block.creations.size).toUInt32 =
    maxNumCreations

/-- After the block the last epoch would be the current one. -/
def EntersLastEpoch (bc : Blockchain) (block : CollectionBlock) : Prop :=
  EndsEpoch bc block ∧ bc.getMiningState.epoch + 1 = lastEpoch

/-- **Only the last epoch has no list.** -/
theorem EpochsCounted.epochListed_iff {bc : Blockchain} (h : EpochsCounted bc) :
    EpochListed bc ↔ bc.getMiningState.epoch ≠ lastEpoch := by
  have hlt := bc.getMiningState.epoch.toNat_lt
  have hlast : lastEpoch.toNat = 2 ^ 64 - 1 := rfl
  unfold EpochListed
  rw [← List.length_pos_iff, h, ne_eq, ← UInt64.toNat_inj, hlast, UInt64.toNat_add,
    UInt64.toNat_one]
  omega

theorem EpochsCounted.addBlock {crypto : CryptoHelper} {bc : Blockchain} (h : EpochsCounted bc)
    (block : CollectionBlock) : EpochsCounted (bc.addBlock crypto block) := by
  simp only [EpochsCounted, Blockchain.getMiningState, Blockchain.addBlock]
  rcases updateCurrentBaseline_cases crypto bc.currentBaseline bc.cache.nextFreeBlockId block with
    ⟨heq, -⟩ | ⟨heq, -⟩ <;> rw [heq]
  · simp only [enterBlock]
    rw [List.length_modify]
    exact h
  · exact length_resizeEpochs _ _

theorem EpochsCounted.step {bc : Blockchain} (h : EpochsCounted bc) (crypto : CryptoHelper)
    (op : ChainOp) : EpochsCounted (bc.step crypto op) := by
  cases op with
  | addBlock block => exact h.addBlock block
  | establishBaseline => exact h
  | cacheThread => exact h
  | query question =>
    have hs := Blockchain.afterQuery_sameBalances crypto bc question
    simp only [EpochsCounted, Blockchain.getMiningState, Blockchain.step]
    rw [hs.dataValueHashes, hs.miningState]
    exact h

theorem epoch_addBlock (crypto : CryptoHelper) (bc : Blockchain) (block : CollectionBlock) :
    EndsEpoch bc block ∧
        (bc.addBlock crypto block).getMiningState.epoch = bc.getMiningState.epoch + 1 ∨
      ¬ EndsEpoch bc block ∧
        (bc.addBlock crypto block).getMiningState.epoch = bc.getMiningState.epoch := by
  simp only [Blockchain.addBlock, Blockchain.getMiningState]
  rcases updateCurrentBaseline_cases crypto bc.currentBaseline bc.cache.nextFreeBlockId block with
    ⟨heq, hcount⟩ | ⟨heq, hcount⟩ <;> rw [heq]
  · exact Or.inr ⟨hcount, rfl⟩
  · exact Or.inl ⟨hcount, rfl⟩

/-- A list is lost exactly in entering the last epoch. -/
theorem listed_step_iff {crypto : CryptoHelper} {bc : Blockchain} (hcounted : EpochsCounted bc)
    (h : EpochListed bc) (op : ChainOp) :
    EpochListed (bc.step crypto op) ↔ OnAdd (fun bc block => ¬ EntersLastEpoch bc block) bc op := by
  have hepoch := hcounted.epochListed_iff.1 h
  rw [(hcounted.step crypto op).epochListed_iff]
  cases op with
  | addBlock block =>
    show (bc.addBlock crypto block).getMiningState.epoch ≠ lastEpoch ↔ ¬ (_ ∧ _)
    rcases epoch_addBlock crypto bc block with ⟨hends, heq⟩ | ⟨hends, heq⟩ <;> rw [heq]
    · simp [hends]
    · simp [hends, hepoch]
  | establishBaseline => exact iff_of_true hepoch trivial
  | cacheThread => exact iff_of_true hepoch trivial
  | query question =>
    have hs := Blockchain.afterQuery_sameBalances crypto bc question
    refine iff_of_true ?_ trivial
    show (bc.afterQuery crypto question).currentBaseline.miningState.epoch ≠ lastEpoch
    rw [hs.miningState]
    exact hepoch

theorem RootedRun.epochsCounted_start {crypto : CryptoHelper} (run : RootedRun crypto) :
    EpochsCounted run.start := by
  have hvalid := run.valid
  simp only [validateBlockWithoutContext, Bool.and_eq_true, and_assoc, beq_iff_eq] at hvalid
  obtain ⟨-, -, -, -, -, hlength, -⟩ := hvalid
  rw [run.start_eq]
  exact hlength

/-- **When a valid root can be built on.** In every run from it there is always a list for the
current epoch, exactly when the root is not of the last epoch and no block enters that. -/
theorem RootedRun.listed_iff {crypto : CryptoHelper} (run : RootedRun crypto) :
    run.AllStates EpochListed ↔
      run.root.miningState.epoch ≠ lastEpoch ∧
        run.AllSteps (OnAdd fun bc block => ¬ EntersLastEpoch bc block) := by
  have hcounted : run.AllSteps fun bc _ => EpochsCounted bc := by
    refine Run.AllStates.allSteps (Run.AllStates.of_steps (P := fun _ _ => True) ?_
      run.epochsCounted_start (Run.AllSteps.of_forall_mem fun _ _ _ => trivial))
    exact fun bc op h _ => h.step crypto op
  have hroot : EpochListed run.start ↔ run.root.miningState.epoch ≠ lastEpoch := by
    rw [run.epochsCounted_start.epochListed_iff, run.start_eq]
    rfl
  have hrun (hfirst : EpochListed run.start) : run.AllStates EpochListed ↔
      run.AllSteps (OnAdd fun bc block => ¬ EntersLastEpoch bc block) :=
    Run.AllStates.iff_allSteps (I := EpochListed) (P := fun bc _ => EpochsCounted bc)
      (fun _ op hlisted hc => listed_step_iff hc hlisted op) hfirst hcounted
  rw [← hroot]
  constructor
  · intro h
    exact ⟨h.first, (hrun h.first).1 h⟩
  · intro h
    exact (hrun h.1).2 h.2

namespace Sample

/-- A root of the last epoch, with no coins and no list of hashes. -/
def lastEpochRoot : BaselineBlock :=
  CryptoHelper.sample.fillHash
    { header := { genericHeader := { blockType := .BaselineBlock }, blockUid := 1 }
      miningState := { epoch := lastEpoch }
      dataValueHashes := []
      wallets := ∅ }

/-- The run that only sets this root. -/
def lastEpochRun : RootedRun .sample where
  root := lastEpochRoot
  valid := by decide +kernel
  before := {}
  ops := []
  admissible := trivial

end Sample

/-- A valid root without any list. -/
theorem valid_root_without_epochs : ¬ ∀ run : RootedRun .sample, run.AllStates EpochListed := by
  intro h
  have hlisted := (h Sample.lastEpochRun).first.2
  exact hlisted (by decide +kernel)

end SwabianCoin
