import SwabianCoin.BlockDefinitions
import SwabianCoin.Lib.Base64
import Mathlib.Data.List.DropRight

/-!
# Hashing and signing blocks

`CryptoHelper` follows the class of that name. What it takes from OpenSSL is a parameter: SHA-256
on bytes, the verification of a signature text against a key, and the test whether a key can be
read at all. Hashing and signing a *block* is the repository's own code, written once here for
every block type that has a hash (`Hashed`) or a signature (`Signed`).
-/

namespace SwabianCoin

/-- The operations on raw bytes and keys. -/
structure CryptoHelper where
  /-- The SHA-256 hash of a string. -/
  calcHash : Bytes → Hash
  /-- Does the signature text verify for these bytes and this key? -/
  verifySignature : Bytes → Signature → PublicKeyPEM → Bool
  /-- Can the key be read? -/
  isPublicKeyValid : PublicKeyPEM → Bool

/-- A block type with a hash in its header. -/
class Hashed (β : Type) where
  blockHash : β → Hash
  /-- Overwrite the hash in the header. -/
  withBlockHash : β → Hash → β
  ser : β → Bytes
  blockHash_withBlockHash : ∀ block hash, blockHash (withBlockHash block hash) = hash
  withBlockHash_withBlockHash : ∀ block hash hash',
    withBlockHash (withBlockHash block hash) hash' = withBlockHash block hash'
  withBlockHash_blockHash : ∀ block, withBlockHash block (blockHash block) = block

attribute [simp] Hashed.blockHash_withBlockHash Hashed.withBlockHash_withBlockHash
  Hashed.withBlockHash_blockHash

/-- A block type that also carries a signature. -/
class Signed (β : Type) extends Hashed β where
  signature : β → Signature
  withSignature : β → Signature → β

instance : Signed TransactionSubBlock where
  blockHash block := block.header.genericHeader.blockHash
  withBlockHash block hash :=
    { block with
      header := { genericHeader := { block.header.genericHeader with blockHash := hash } } }
  ser := TransactionSubBlock.ser
  blockHash_withBlockHash _ _ := rfl
  withBlockHash_withBlockHash _ _ _ := rfl
  withBlockHash_blockHash _ := rfl
  signature := TransactionSubBlock.signature
  withSignature block signature := { block with signature }

instance : Signed CreationSubBlock where
  blockHash block := block.header.genericHeader.blockHash
  withBlockHash block hash :=
    { block with
      header := { genericHeader := { block.header.genericHeader with blockHash := hash } } }
  ser := CreationSubBlock.ser
  blockHash_withBlockHash _ _ := rfl
  withBlockHash_withBlockHash _ _ _ := rfl
  withBlockHash_blockHash _ := rfl
  signature := CreationSubBlock.signature
  withSignature block signature := { block with signature }

instance : Hashed BaselineBlock where
  blockHash block := block.header.genericHeader.blockHash
  withBlockHash block hash :=
    { block with header := { block.header with
        genericHeader := { block.header.genericHeader with blockHash := hash } } }
  ser := BaselineBlock.ser
  blockHash_withBlockHash _ _ := rfl
  withBlockHash_withBlockHash _ _ _ := rfl
  withBlockHash_blockHash _ := rfl

instance : Hashed CollectionBlock where
  blockHash block := block.header.genericHeader.blockHash
  withBlockHash block hash :=
    { block with header := { block.header with
        genericHeader := { block.header.genericHeader with blockHash := hash } } }
  ser := CollectionBlock.ser
  blockHash_withBlockHash _ _ := rfl
  withBlockHash_withBlockHash _ _ _ := rfl
  withBlockHash_blockHash _ := rfl

namespace CryptoHelper

variable (crypto : CryptoHelper) {β : Type}

/-- The hash a block should carry: that of its serialisation with a zero hash. -/
def contentHash [Hashed β] (block : β) : Hash :=
  crypto.calcHash (archive (Hashed.ser (Hashed.withBlockHash block 0)))

/-- `fillHash` hashes the block as it stands. Its callers have zeroed the hash before. -/
def fillHash [Hashed β] (block : β) : β :=
  Hashed.withBlockHash block (crypto.calcHash (archive (Hashed.ser block)))

def verifyHash [Hashed β] (block : β) : Bool :=
  Hashed.blockHash block == crypto.contentHash block

/-- The bytes a signature covers: the block without hash and signature. -/
def signedBytes [Signed β] (block : β) : Bytes :=
  archive (Hashed.ser (Signed.withSignature (Hashed.withBlockHash block 0) []))

/-- `fillSignature`, where `signature` is what `calcSignature` returned for `signedBytes`. -/
def fillSignature [Signed β] (block : β) (signature : Signature) : β :=
  Signed.withSignature block signature

def verifyBlockSignature [Signed β] (block : β) (key : PublicKeyPEM) : Bool :=
  crypto.verifySignature (signedBytes block) (Signed.signature block) key

@[simp] theorem contentHash_withBlockHash [Hashed β] (block : β) (hash : Hash) :
    crypto.contentHash (Hashed.withBlockHash block hash) = crypto.contentHash block := by
  simp [contentHash]

theorem verifyHash_iff [Hashed β] {block : β} :
    crypto.verifyHash block = true ↔ Hashed.blockHash block = crypto.contentHash block :=
  beq_iff_eq

theorem fillHash_withBlockHash_zero [Hashed β] (block : β) :
    crypto.fillHash (Hashed.withBlockHash block 0) =
      Hashed.withBlockHash block (crypto.contentHash block) := by
  simp [fillHash, contentHash]

theorem fillHash_of_blockHash_zero [Hashed β] {block : β} (h : Hashed.blockHash block = 0) :
    crypto.fillHash block = Hashed.withBlockHash block (crypto.contentHash block) := by
  rw [← fillHash_withBlockHash_zero, ← h, Hashed.withBlockHash_blockHash]

theorem verifyHash_withBlockHash_contentHash [Hashed β] (block : β) :
    crypto.verifyHash (Hashed.withBlockHash block (crypto.contentHash block)) = true := by
  simp [verifyHash_iff]

/-! ## A small instance -/

/-- How the PEM reader takes the lines of a key text: blanks at the end of a line are cut off, and
what remains must not be empty and has letters of base64 only. -/
def readsLines (text : Bytes) : Bool :=
  (text.splitOn 10).all fun line =>
    let letters := line.rdropWhile fun byte => byte ≤ 32
    !letters.isEmpty && letters.all fun byte => (Base64.value byte).isSome

example : readsLines [65, 10, 65] = true := by decide +kernel

example : readsLines [65, 65, 10] = false := by decide +kernel

/-- An instance for concrete runs. The hash reads the bytes as digits and mirrors the result, so
that short strings hash into the area of epoch zero; a signature is the signer's key text, and
a key can be read if its lines can: keys may be shorter than real ones. -/
def sample : CryptoHelper where
  calcHash bytes :=
    Fin.rev (Fin.ofNat (2 ^ 256) (bytes.foldl (fun hash byte => hash * 257 + byte.toNat + 1) 0))
  verifySignature _ signature key := readsLines key.shortString && signature == key.shortString
  isPublicKeyValid key := readsLines key.shortString

end CryptoHelper

end SwabianCoin
