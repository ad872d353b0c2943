import SwabianCoin.Validation

/-!
# How a node builds sub-blocks and blocks

The constructions of `CycleStateCollect::onCycle` and `CycleStateIntroduceBlock::onEnter`: a
creation or a transaction on top of the newest block, signed and hashed, and a block around the
collected sub-blocks.
-/

namespace SwabianCoin

variable (crypto : CryptoHelper)

/-- A creation on top of `newest`. The signature is what `calcSignature` returned. -/
def buildCreation (newest : Block) (dataValue : Bytes) (creator : PublicKeyPEM)
    (signature : Signature) : CreationSubBlock :=
  crypto.fillHash (CryptoHelper.fillSignature
    { header := { genericHeader :=
        { blockType := .CreationSubBlock
          previousBlockHash := newest.header.genericHeader.blockHash } }
      dataValue, creator } signature)

/-- A transaction on top of `newest`. -/
def buildTransaction (newest : Block) (preOwner postOwner : PublicKeyPEM) (fraction : UInt64)
    (signature : Signature) : TransactionSubBlock :=
  crypto.fillHash (CryptoHelper.fillSignature
    { header := { genericHeader :=
        { blockType := .TransactionSubBlock
          previousBlockHash := newest.header.genericHeader.blockHash } }
      preOwner, postOwner, fraction } signature)

/-- Zero the hash of a block and fill it in again. -/
def refillHash (block : CollectionBlock) : CollectionBlock :=
  crypto.fillHash (Hashed.withBlockHash block 0)

/-- Put a block on top of `newest`, which the chain holds under `newestBlockId`. -/
def placeBlock (newestBlockId : BlockUid) (newest : Block) (block : CollectionBlock) :
    CollectionBlock :=
  refillHash crypto
    { block with header :=
        { genericHeader :=
            { block.header.genericHeader with
              previousBlockHash := newest.header.genericHeader.blockHash }
          blockUid := newestBlockId + 1 } }

/-- Store a creation under its own hash. -/
def storeCreation (creations : OrdMap Hash CreationSubBlock) (subBlock : CreationSubBlock) :
    OrdMap Hash CreationSubBlock :=
  creations.insert subBlock.header.genericHeader.blockHash subBlock

/-- Store a transaction under its own hash. -/
def storeTransaction (transactions : OrdMap Hash TransactionSubBlock)
    (subBlock : TransactionSubBlock) : OrdMap Hash TransactionSubBlock :=
  transactions.insert subBlock.header.genericHeader.blockHash subBlock

/-! ## Small chains -/

namespace Sample

/-- Three keys of one letter each. -/
def keyA : PublicKeyPEM := ⟨[65]⟩

def keyB : PublicKeyPEM := ⟨[66]⟩

def keyC : PublicKeyPEM := ⟨[67]⟩

/-- The root of an empty chain. -/
def root : Block := .baseline (Blockchain.emptyBaseline .sample)

/-- A coin for `key`, with a data value of epoch zero. -/
def coin (newest : Block) (key : PublicKeyPEM) (suffix : Bytes) : CreationSubBlock :=
  buildCreation .sample newest (dataValueBeginning {} key ++ suffix) key key.shortString

/-- A payment signed by the payer. -/
def payment (newest : Block) (preOwner postOwner : PublicKeyPEM) (fraction : UInt64) :
    TransactionSubBlock :=
  buildTransaction .sample newest preOwner postOwner fraction preOwner.shortString

/-- A block on top of `newest`. -/
def block (newest : Block) (transactions : List TransactionSubBlock)
    (creations : List CreationSubBlock) : CollectionBlock :=
  placeBlock .sample newest.header.blockUid newest
    { transactions := transactions.foldl storeTransaction ∅
      creations := creations.foldl storeCreation ∅ }

end Sample

end SwabianCoin
