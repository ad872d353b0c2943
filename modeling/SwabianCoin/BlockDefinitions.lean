import SwabianCoin.Lib.Machine
import SwabianCoin.Lib.OrdMap

/-!
# Blocks

The data model: hashes, keys, headers, sub-blocks and blocks, following `Common.h`,
`PublicKeyPEM.h` and `BlockDefinitions.h`, and the bytes each of them is serialised to.

Integers have the widths of the source. A `std::string` is a list of bytes, a `std::map` an
ordered map, a `std::vector` a list. The serialisation is the one `PortableBinaryOutputArchive`
produces: integers little-endian, containers as a 64-bit size followed by their elements. It is
what block hashes and signatures are computed over.
-/

namespace SwabianCoin

open Machine

/-- A `std::string`: bytes, compared lexicographically. -/
abbrev Bytes := List UInt8

/-- `hash_t`, a `uint256_t`. -/
abbrev Hash := Fin (2 ^ 256)

instance neZeroHash : NeZero (2 ^ 256) := ⟨(Nat.two_pow_pos 256).ne'⟩

/-- `signature_t`, a text. -/
abbrev Signature := Bytes

/-- `peer_id_t`, a text. -/
abbrev PeerId := Bytes

/-- `block_uid_t`; `0` is invalid. -/
abbrev BlockUid := UInt64

/-- `epoch_t`. -/
abbrev Epoch := UInt64

/-- `blockchain_time_t`, in milliseconds. -/
abbrev BlockchainTime := UInt64

/-- `hash_helper::toString`: upper-case hexadecimal digits without leading zeros. -/
def hashToString (hash : Hash) : Bytes :=
  (Nat.toDigits 16 hash).map fun c => UInt8.ofNat c.toUpper.toNat

/-! ## Public keys -/

/-- A public key, held as the base64 text between the PEM header and footer. -/
structure PublicKeyPEM where
  shortString : Bytes
  deriving DecidableEq

namespace PublicKeyPEM

theorem shortString_injective : Function.Injective shortString := fun a b h => by
  cases a; cases b; simpa using h

/-- Keys compare as their short strings do. -/
instance : LinearOrder PublicKeyPEM := LinearOrder.lift' shortString shortString_injective

instance : Inhabited PublicKeyPEM := ⟨⟨[]⟩⟩

/-- `getAsShortString`: the text between header and footer. -/
def getAsShortString (key : PublicKeyPEM) : Bytes := key.shortString

def isEmpty (key : PublicKeyPEM) : Bool := key.shortString.length == 0

end PublicKeyPEM

/-! ## Headers -/

/-- `BlockType`, an enumeration over a byte. Bytes without a name can arrive from the wire, and
`0` is the value-initialised one. -/
inductive BlockType where
  | CollectionBlock
  | BaselineBlock
  | TransactionSubBlock
  | CreationSubBlock
  | other (code : UInt8) (unnamed : code = 0 ∨ 4 < code)
  deriving DecidableEq

/-- The byte behind the enumeration. -/
def BlockType.toByte : BlockType → UInt8
  | .CollectionBlock => 1
  | .BaselineBlock => 2
  | .TransactionSubBlock => 3
  | .CreationSubBlock => 4
  | .other code _ => code

/-- What the headers of blocks and sub-blocks have in common. -/
structure GenericHeader where
  blockHash : Hash := 0
  previousBlockHash : Hash := 0
  blockType : BlockType := .other 0 (Or.inl rfl)
  deriving DecidableEq

structure BlockHeader where
  genericHeader : GenericHeader := {}
  blockUid : BlockUid := 0
  deriving DecidableEq

structure SubBlockHeader where
  genericHeader : GenericHeader := {}
  deriving DecidableEq

/-! ## Sub-blocks -/

/-- A payment of `fraction` from `preOwner` to `postOwner`, signed by the first of them. -/
structure TransactionSubBlock where
  header : SubBlockHeader := { genericHeader := { blockType := .TransactionSubBlock } }
  fraction : UInt64 := 0
  preOwner : PublicKeyPEM := default
  postOwner : PublicKeyPEM := default
  signature : Signature := []
  deriving DecidableEq

/-- The smallest amount is a millionth of a coin. -/
def fractionPerCoin : UInt32 := 1000000

/-- A coin for the creator, who has found the data value and signs it. -/
structure CreationSubBlock where
  header : SubBlockHeader := { genericHeader := { blockType := .CreationSubBlock } }
  dataValue : Bytes := []
  creator : PublicKeyPEM := default
  signature : Signature := []
  deriving DecidableEq

/-- Data values are texts of so many characters at most. -/
def maxDataValueLength : UInt32 := 1024

/-! ## Blocks -/

/-- Where mining has come to: the epoch, its hashes and the number of its coins. -/
structure MiningState where
  epoch : Epoch := 0
  highestHashOfLastEpoch : Hash := 0
  highestHashOfCurrentEpoch : Hash := 0
  numMiningsInEpoch : Int32 := 0
  deriving DecidableEq

/-- A summary of the chain: all coins and the balances of all wallets. -/
structure BaselineBlock where
  header : BlockHeader := { genericHeader := { blockType := .BaselineBlock } }
  miningState : MiningState := {}
  /-- The hashes of all data values: one list for each epoch. -/
  dataValueHashes : List (List Hash) := []
  wallets : OrdMap PublicKeyPEM UInt64 := ∅
  deriving DecidableEq

/-- The sub-blocks of one cycle, each under its hash. -/
structure CollectionBlock where
  header : BlockHeader := { genericHeader := { blockType := .CollectionBlock } }
  transactions : OrdMap Hash TransactionSubBlock := ∅
  creations : OrdMap Hash CreationSubBlock := ∅
  deriving DecidableEq

/-- So many coins make an epoch. -/
def maxNumCreations : UInt32 := 1000

/-- A block has so many transactions at most. -/
def maxNumTransactions : UInt32 := 10000

/-- What a `std::shared_ptr<BaseBlock>` of the chain can point to. -/
inductive Block where
  | baseline (block : BaselineBlock)
  | collection (block : CollectionBlock)
  deriving DecidableEq

/-- The part every block shares. -/
def Block.header : Block → BlockHeader
  | .baseline block => block.header
  | .collection block => block.header

/-- The type in the header is the one of the block's class. -/
def Block.WellTyped : Block → Prop
  | .baseline block => block.header.genericHeader.blockType = .BaselineBlock
  | .collection block => block.header.genericHeader.blockType = .CollectionBlock

instance : ∀ block : Block, Decidable block.WellTyped
  | .baseline _ => inferInstanceAs (Decidable (_ = _))
  | .collection _ => inferInstanceAs (Decidable (_ = _))

/-! ## Serialisation -/

/-- The bytes of a number, least significant first. -/
def leBytes (width value : Nat) : Bytes :=
  (List.range width).map fun i => UInt8.ofNat (value / 2 ^ (8 * i))

def serUInt64 (value : UInt64) : Bytes := leBytes 8 value.toNat

def serInt32 (value : Int32) : Bytes := leBytes 4 value.toUInt32.toNat

/-- A size tag. -/
def serSize (size : Nat) : Bytes := serUInt64 (UInt64.ofNat size)

/-- A hash is written as four 64-bit words, the most significant first. -/
def serHash (hash : Hash) : Bytes :=
  [3, 2, 1, 0].flatMap fun i => serUInt64 (UInt64.ofNat (hash.val / 2 ^ (i * 64)))

/-- A text after its length. -/
def serString (text : Bytes) : Bytes := serSize text.length ++ text

/-- A vector after its size. -/
def serList {α : Type} (ser : α → Bytes) (elements : List α) : Bytes :=
  serSize elements.length ++ elements.flatMap ser

/-- A map after its size, in the order of its keys. -/
def serMap {α β : Type} [LinearOrder α] (serKey : α → Bytes) (serValue : β → Bytes)
    (map : OrdMap α β) : Bytes :=
  serList (fun entry => serKey entry.1 ++ serValue entry.2) map.entries

/-- `ser` of a key: its text as it is. -/
def PublicKeyPEM.ser (key : PublicKeyPEM) : Bytes := serString key.shortString

/-- The two hashes and the byte of the type. -/
def GenericHeader.ser (header : GenericHeader) : Bytes :=
  serHash header.blockHash ++ serHash header.previousBlockHash ++ [header.blockType.toByte]

def BlockHeader.ser (header : BlockHeader) : Bytes :=
  header.genericHeader.ser ++ serUInt64 header.blockUid

def SubBlockHeader.ser (header : SubBlockHeader) : Bytes := header.genericHeader.ser

def TransactionSubBlock.ser (block : TransactionSubBlock) : Bytes :=
  block.header.ser ++ serUInt64 block.fraction ++ block.preOwner.ser ++ block.postOwner.ser ++
    serString block.signature

def CreationSubBlock.ser (block : CreationSubBlock) : Bytes :=
  block.header.ser ++ serString block.dataValue ++ block.creator.ser ++ serString block.signature

def MiningState.ser (state : MiningState) : Bytes :=
  serUInt64 state.epoch ++ serHash state.highestHashOfLastEpoch ++
    serHash state.highestHashOfCurrentEpoch ++ serInt32 state.numMiningsInEpoch

/-- `ser` of a baseline, the wallets last. -/
def BaselineBlock.ser (block : BaselineBlock) : Bytes :=
  block.header.ser ++ block.miningState.ser ++ serList (serList serHash) block.dataValueHashes ++
    serMap PublicKeyPEM.ser serUInt64 block.wallets

/-- `ser` of a collection: the header and both maps. -/
def CollectionBlock.ser (block : CollectionBlock) : Bytes :=
  block.header.ser ++ serMap serHash TransactionSubBlock.ser block.transactions ++
    serMap serHash CreationSubBlock.ser block.creations

/-- The output archive first writes the byte order it uses, then the value. -/
def archive (value : Bytes) : Bytes := 1 :: value

end SwabianCoin
