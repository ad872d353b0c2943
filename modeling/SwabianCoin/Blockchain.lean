import SwabianCoin.Cache
import SwabianCoin.CryptoHelper
import Mathlib.Data.List.Chain
import Mathlib.Logic.Function.Iterate

/-!
# The blockchain

`Blockchain` holds the blocks since the last baseline, the ids of the root and the newest block,
and `currentBaseline`, the baseline that would be written now: wallets, mining state and the
hashes of all data values. Adding a collection block updates it in place.

The functions follow `Blockchain.cpp`. Integers wrap as they do there in a release build, where
assertions are off. A check that only logs and returns `false` is one conjunct here, in the order
of the source. Two things in `validateBlock` are easy to overlook: the keys of the two maps of a
block are never compared with anything, and the balance check reads the live wallets through
`operator[]`, so even a block it rejects can leave a new wallet behind.
-/

namespace SwabianCoin

open Machine

/-! ## Hash areas -/

/-- The number of values of a `uint512_t`. -/
def uint512Size : Nat := 2 ^ 512

/-- One division of the upper limit by `α = 1.001776032062287`, in 512-bit arithmetic. -/
def hashAreaStep (temp : Nat) : Nat :=
  temp * 1000000000000000 % uint512Size / 1001776032062287

/-- `getHashArea`: the largest and the smallest hash allowed in an epoch. -/
def getHashArea (epoch : Epoch) : Hash × Hash :=
  let temp := hashAreaStep^[epoch.toNat] (2 ^ 256 - 1)
  let maxAllowedHash := Fin.ofNat (2 ^ 256) temp
  let minAllowedHash := min (Fin.ofNat (2 ^ 256) (hashAreaStep maxAllowedHash) + 1) maxAllowedHash
  (maxAllowedHash, minAllowedHash)

/-! ## State -/

/-- `MetaData`: the ids of the root and the newest block. -/
structure MetaData where
  rootBlockId : BlockUid
  newestBlockId : BlockUid
  deriving DecidableEq

/-- The blocks, the baseline that will be written next, and the ids. -/
structure Blockchain where
  cache : Cache := {}
  currentBaseline : BaselineBlock := {}
  metaData : MetaData := ⟨0, 0⟩

namespace Blockchain

def getBlock (bc : Blockchain) (uid : BlockUid) : Option Block := bc.cache.getBlock uid

def getRootBlockId (bc : Blockchain) : BlockUid := bc.metaData.rootBlockId

def getNewestBlockId (bc : Blockchain) : BlockUid := bc.metaData.newestBlockId

def getNewestBlock (bc : Blockchain) : Option Block := bc.getBlock bc.getNewestBlockId

def getBalance (bc : Blockchain) (publicKey : PublicKeyPEM) : UInt64 :=
  bc.currentBaseline.wallets.getD publicKey 0

def getNumWallets (bc : Blockchain) : Nat := bc.currentBaseline.wallets.size

def getMiningState (bc : Blockchain) : MiningState := bc.currentBaseline.miningState

/-- The data value hashes of the current epoch, or nothing if there is no epoch at all. -/
def dataValueHashesOfEpoch (bc : Blockchain) : List Hash :=
  bc.currentBaseline.dataValueHashes.getLastD []

end Blockchain

/-! ## Applying a block -/

/-- The balances of all wallets. -/
abbrev Wallets := OrdMap PublicKeyPEM UInt64

/-- A coin for the creator. -/
def applyCreation (wallets : Wallets) (creation : CreationSubBlock) : Wallets :=
  wallets.update creation.creator 0 (· + fractionPerCoin.toUInt64)

/-- `fraction` moves from one wallet to the other, modulo `2 ^ 64` on both sides. -/
def applyTransaction (wallets : Wallets) (transaction : TransactionSubBlock) : Wallets :=
  (wallets.update transaction.preOwner 0 (· - transaction.fraction)).update
    transaction.postOwner 0 (· + transaction.fraction)

/-- All wallets after a block: first the creations, then the transactions, in key order. -/
def applyBlock (wallets : Wallets) (block : CollectionBlock) : Wallets :=
  block.transactions.values.foldl applyTransaction
    (block.creations.values.foldl applyCreation wallets)

/-- `std::vector::resize` for the list of epochs. -/
def resizeEpochs (epochs : List (List Hash)) (size : Nat) : List (List Hash) :=
  epochs.take size ++ List.replicate (size - epochs.length) []

/-- The hashes of the epoch with those of a block's data values put in, sorted. -/
def addDataValues (crypto : CryptoHelper) (block : CollectionBlock) (hashes : List Hash) :
    List Hash :=
  (hashes ++ block.creations.values.map
    fun creation => crypto.calcHash creation.dataValue).insertionSort (· ≤ ·)

/-- The end of an epoch: the next one starts empty, with the highest hash of this one. -/
def rollOver (baseline : BaselineBlock) : BaselineBlock :=
  let epoch := baseline.miningState.epoch + 1
  { baseline with
    miningState :=
      { epoch
        highestHashOfLastEpoch := baseline.miningState.highestHashOfCurrentEpoch
        highestHashOfCurrentEpoch := 0
        numMiningsInEpoch := 0 }
    dataValueHashes := resizeEpochs baseline.dataValueHashes (epoch + 1).toNat }

/-- `updateCurrentBaseline` up to the test for the end of the epoch, where `newestBlockId` is the
id the block was just stored under. -/
def enterBlock (crypto : CryptoHelper) (baseline : BaselineBlock) (newestBlockId : BlockUid)
    (block : CollectionBlock) : BaselineBlock :=
  let epochs := baseline.dataValueHashes.modify baseline.miningState.epoch.toNat
    (addDataValues crypto block)
  { header :=
      { genericHeader :=
          { baseline.header.genericHeader with
            blockHash := 0
            previousBlockHash := block.header.genericHeader.blockHash }
        blockUid := newestBlockId + 1 }
    miningState :=
      { baseline.miningState with
        highestHashOfCurrentEpoch := (epochs.getD baseline.miningState.epoch.toNat []).getLastD 0
        numMiningsInEpoch :=
          baseline.miningState.numMiningsInEpoch + Int32.ofNat block.creations.size }
    dataValueHashes := epochs
    wallets := applyBlock baseline.wallets block }

/-- `updateCurrentBaseline`: the block is entered, and the epoch ends if it is full. -/
def updateCurrentBaseline (crypto : CryptoHelper) (baseline : BaselineBlock)
    (newestBlockId : BlockUid) (block : CollectionBlock) : BaselineBlock :=
  let updated := enterBlock crypto baseline newestBlockId block
  if updated.miningState.numMiningsInEpoch.toUInt32 = maxNumCreations then rollOver updated
  else updated

namespace Blockchain

/-- `addBlock` for a collection block. -/
def addBlock (crypto : CryptoHelper) (bc : Blockchain) (block : CollectionBlock) : Blockchain where
  cache := bc.cache.addBlock (.collection block)
  metaData := { bc.metaData with newestBlockId := bc.cache.nextFreeBlockId }
  currentBaseline :=
    updateCurrentBaseline crypto bc.currentBaseline bc.cache.nextFreeBlockId block

/-- `addBlock` for a baseline block. -/
def addBaselineBlock (bc : Blockchain) (block : BaselineBlock) : Blockchain where
  cache := bc.cache.addBlock (.baseline block)
  metaData := { bc.metaData with newestBlockId := bc.cache.nextFreeBlockId }
  currentBaseline := Hashed.withBlockHash block 0

/-- `setRootBlock`: the chain starts again with this baseline, unless its id is invalid. -/
def setRootBlock (bc : Blockchain) (block : BaselineBlock) : Blockchain :=
  if block.header.blockUid = 0 then bc
  else
    { ({ bc with cache := bc.cache.resetCache block.header.blockUid } : Blockchain).addBaselineBlock
        block with
      metaData := ⟨block.header.blockUid, block.header.blockUid⟩ }

/-- The baseline `initEmptyChain` starts from. -/
def emptyBaseline (crypto : CryptoHelper) : BaselineBlock :=
  crypto.fillHash
    { header :=
        { genericHeader := { blockType := .BaselineBlock, previousBlockHash := 0 }, blockUid := 1 }
      miningState := {}
      dataValueHashes := [[]]
      wallets := ∅ }

def initEmptyChain (crypto : CryptoHelper) (bc : Blockchain) : Blockchain :=
  bc.setRootBlock (emptyBaseline crypto)

/-- The block `establishBaseline` writes. -/
def establishedBaseline (crypto : CryptoHelper) (bc : Blockchain) : BaselineBlock :=
  crypto.fillHash bc.currentBaseline

/-- `establishBaseline`: the current baseline becomes the root and the only block in memory. -/
def establishBaseline (crypto : CryptoHelper) (bc : Blockchain) : Blockchain :=
  let block := bc.establishedBaseline crypto
  { cache := (bc.cache.resetCache block.header.blockUid).addBlock (.baseline block)
    currentBaseline := Hashed.withBlockHash block 0
    metaData := ⟨block.header.blockUid, block.header.blockUid⟩ }

end Blockchain

/-! ## Validating sub-blocks -/

section Validation

variable (crypto : CryptoHelper)

/-- `validateSubBlock` for a transaction on top of the block `newest`. -/
def validateTransactionSubBlock (subBlock : TransactionSubBlock) (newest : Block) : Bool :=
  -- zero transactions are not allowed
  subBlock.fraction != 0 &&
  subBlock.header.genericHeader.blockType == .TransactionSubBlock &&
  crypto.verifyHash subBlock &&
  crypto.verifyBlockSignature subBlock subBlock.preOwner &&
  subBlock.preOwner != subBlock.postOwner &&
  crypto.isPublicKeyValid subBlock.postOwner &&
  subBlock.header.genericHeader.previousBlockHash == newest.header.genericHeader.blockHash

/-- What the data value of a creation has to begin with. -/
def dataValueBeginning (miningState : MiningState) (creator : PublicKeyPEM) : Bytes :=
  hashToString miningState.highestHashOfLastEpoch ++ [95] ++ creator.getAsShortString ++ [95]

/-- `validateSubBlock` for a creation on top of the block `newest`. -/
def validateCreationSubBlock (subBlock : CreationSubBlock) (newest : Block)
    (miningState : MiningState) (hashArea : Hash × Hash) (dataValueHashesOfEpoch : List Hash) :
    Bool :=
  let dataValueHash := crypto.calcHash subBlock.dataValue
  subBlock.header.genericHeader.blockType == .CreationSubBlock &&
  crypto.verifyHash subBlock &&
  crypto.verifyBlockSignature subBlock subBlock.creator &&
  decide (subBlock.dataValue.length ≤ maxDataValueLength.toNat) &&
  (dataValueBeginning miningState subBlock.creator).isPrefixOf subBlock.dataValue &&
  decide (hashArea.2 ≤ dataValueHash) && decide (dataValueHash ≤ hashArea.1) &&
  subBlock.header.genericHeader.previousBlockHash == newest.header.genericHeader.blockHash &&
  -- a binary search in the sorted hashes of the epoch
  !dataValueHashesOfEpoch.contains dataValueHash

/-! ## Validating collection blocks -/

/-- The creations appear in ascending order of their own hashes. -/
def creationsSorted (lastHash : Hash) : List CreationSubBlock → Bool
  | [] => true
  | creation :: rest =>
    let hash := creation.header.genericHeader.blockHash
    !decide (hash < lastHash) && creationsSorted hash rest

/-- `max_num_creations - num_minings_in_epoch`, in 32-bit unsigned arithmetic. -/
def creationsLeft (miningState : MiningState) : Nat :=
  (maxNumCreations - miningState.numMiningsInEpoch.toUInt32).toNat

/-- Every check of `validateBlock` before the one of the balances. -/
def checkContents (bc : Blockchain) (block : CollectionBlock) (newest : Block) : Bool :=
  let miningState := bc.getMiningState
  let hashArea := getHashArea miningState.epoch
  let dataValueHashesOfEpoch := bc.dataValueHashesOfEpoch
  block.header.blockUid != 0 &&
  block.header.blockUid == newest.header.blockUid + 1 &&
  block.header.genericHeader.blockType == .CollectionBlock &&
  crypto.verifyHash block &&
  block.transactions.values.all (fun transaction =>
    validateTransactionSubBlock crypto transaction newest) &&
  block.creations.values.all (fun creation =>
    validateCreationSubBlock crypto creation newest miningState hashArea dataValueHashesOfEpoch) &&
  creationsSorted 0 block.creations.values &&
  decide (block.creations.size ≤ creationsLeft miningState) &&
  decide (block.transactions.size ≤ maxNumTransactions.toNat) &&
  block.header.genericHeader.previousBlockHash == newest.header.genericHeader.blockHash &&
  -- a `std::set` refuses the second of two equal data values
  decide (block.creations.values.map CreationSubBlock.dataValue).Nodup

/-- What a block changes for each wallet. -/
abbrev WalletDiffs := OrdMap PublicKeyPEM Int64

/-- `int64_t += uint64_t`: the sum is taken in 64-bit unsigned arithmetic. -/
def addUnsigned (diff : Int64) (amount : UInt64) : Int64 := (diff.toUInt64 + amount).toInt64

/-- `int64_t -= uint64_t`. -/
def subUnsigned (diff : Int64) (amount : UInt64) : Int64 := (diff.toUInt64 - amount).toInt64

def diffCreation (diffs : WalletDiffs) (creation : CreationSubBlock) : WalletDiffs :=
  diffs.update creation.creator 0 (addUnsigned · fractionPerCoin.toUInt64)

def diffTransaction (diffs : WalletDiffs) (transaction : TransactionSubBlock) : WalletDiffs :=
  (diffs.update transaction.preOwner 0 (subUnsigned · transaction.fraction)).update
    transaction.postOwner 0 (addUnsigned · transaction.fraction)

/-- `wallet_diffs`: what the block changes, for every wallet it mentions, as signed integers. -/
def walletDiffs (block : CollectionBlock) : WalletDiffs :=
  block.transactions.values.foldl diffTransaction
    (block.creations.values.foldl diffCreation ∅)

/-- A wallet the block would take below zero. -/
def overdrawn (diff : Int64) (balance : UInt64) : Bool :=
  decide (diff < 0) && decide (diff + balance.toInt64 < 0)

/-- The loop over `wallet_diffs`, with the wallets it leaves. The balance is only read, and a
missing wallet only created, for a negative difference. -/
def checkBalances : List (PublicKeyPEM × Int64) → Wallets → Bool × Wallets
  | [], wallets => (true, wallets)
  | (key, diff) :: rest, wallets =>
    if diff < 0 then
      let wallets := wallets.touch key 0
      if diff + (wallets.getD key 0).toInt64 < 0 then (false, wallets)
      else checkBalances rest wallets
    else checkBalances rest wallets

namespace Blockchain

/-- Replace the wallets of the current baseline. -/
def withWallets (bc : Blockchain) (wallets : Wallets) : Blockchain :=
  { bc with currentBaseline := { bc.currentBaseline with wallets } }

/-- `validateBlock` for a collection block: the verdict and the chain it leaves. Without a newest
block, which no reachable chain lacks, there is nothing to compare with. -/
def validateBlock (bc : Blockchain) (block : CollectionBlock) : Bool × Blockchain :=
  match bc.getNewestBlock with
  | none => (false, bc)
  | some newest =>
    if checkContents crypto bc block newest then
      let result := checkBalances (walletDiffs block).entries bc.currentBaseline.wallets
      (result.1, bc.withWallets result.2)
    else (false, bc)

/-- The block is accepted on this chain. -/
def Accepts (bc : Blockchain) (block : CollectionBlock) : Prop :=
  (bc.validateBlock crypto block).1 = true

instance (bc : Blockchain) (block : CollectionBlock) : Decidable (bc.Accepts crypto block) :=
  inferInstanceAs (Decidable (_ = true))

/-- `validateSubBlock` for a transaction on the newest block. -/
def validateTransaction (bc : Blockchain) (subBlock : TransactionSubBlock) : Bool :=
  match bc.getNewestBlock with
  | none => false
  | some newest => validateTransactionSubBlock crypto subBlock newest

/-- `validateSubBlock` for a creation on the newest block. -/
def validateCreation (bc : Blockchain) (subBlock : CreationSubBlock) : Bool :=
  match bc.getNewestBlock with
  | none => false
  | some newest =>
    validateCreationSubBlock crypto subBlock newest bc.getMiningState
      (getHashArea bc.getMiningState.epoch) bc.dataValueHashesOfEpoch

end Blockchain

/-! ## Validating baselines -/

/-- Every epoch is full, the last one at most full. -/
def epochSizesOk : List (List Hash) → Bool
  | [] => true
  | [last] => decide (last.length ≤ maxNumCreations.toNat)
  | hashes :: rest => hashes.length == maxNumCreations.toNat && epochSizesOk rest

/-- The first and the last hash of an epoch lie in its area. -/
def insideHashArea (epoch : Epoch) (hashes : List Hash) : Bool :=
  let hashArea := getHashArea epoch
  hashes.isEmpty ||
    (decide (hashArea.2 ≤ hashes.headD 0) && decide (hashes.headD 0 ≤ hashArea.1) &&
      decide (hashArea.2 ≤ hashes.getLastD 0) && decide (hashes.getLastD 0 ≤ hashArea.1))

/-- The loop over the epochs, with its 32-bit counter. The counter comes back to zero only after
`2 ^ 32` epochs; the loop has long failed then, because the areas run out of hashes. -/
def hashAreasOk (epoch : UInt32) : List (List Hash) → Bool
  | [] => true
  | hashes :: rest => insideHashArea epoch.toUInt64 hashes && hashAreasOk (epoch + 1) rest

/-- `validateBlockWithoutContext`. -/
def validateBlockWithoutContext (block : BaselineBlock) : Bool :=
  let epochs := block.dataValueHashes
  block.header.genericHeader.blockType == .BaselineBlock &&
  block.header.blockUid != 0 &&
  crypto.verifyHash block &&
  (epochs.map fun hashes => UInt64.ofNat hashes.length * fractionPerCoin.toUInt64).sum ==
    block.wallets.values.sum &&
  block.wallets.keys.all crypto.isPublicKeyValid &&
  epochs.length == (block.miningState.epoch + 1).toNat &&
  epochSizesOk epochs &&
  epochs.all (fun hashes => decide (hashes.IsChain (· ≤ ·))) &&
  epochs.all (fun hashes => decide (hashes.IsChain (· ≠ ·))) &&
  hashAreasOk 0 epochs &&
  block.miningState.highestHashOfCurrentEpoch == (epochs.getLastD []).getLastD 0 &&
  block.miningState.highestHashOfLastEpoch == (epochs.dropLast.getLastD []).getLastD 0 &&
  block.miningState.numMiningsInEpoch == Int32.ofNat (epochs.getLastD []).length

/-- `validateBlock` for a baseline block. -/
def validateBaselineBlock (bc : Blockchain) (block : BaselineBlock) : Bool :=
  validateBlockWithoutContext crypto block &&
  match bc.getNewestBlock with
  | none => false
  | some newest =>
    block.header.genericHeader.previousBlockHash == newest.header.genericHeader.blockHash &&
      block.header.blockUid == newest.header.blockUid + 1

end Validation

end SwabianCoin
