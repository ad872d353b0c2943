import SwabianCoin.Lib.Reader
import SwabianCoin.CryptoHelper

/-!
# Reading blocks

The other direction of the serialisation in `BlockDefinitions`: what `PortableBinaryInputArchive`
and the `ser` functions of the block types do with the bytes of an archive. The first byte tells
the byte order; if it is not the one of this machine, every number is turned round (`convert`).

`Sized` says that every container of a block has a size that a `size_t` can hold, which every
object in memory has. Such blocks are read back (`BaselineBlock.reads_ser`,
`CollectionBlock.reads_ser`), so what is hashed and signed determines every field.
-/

namespace SwabianCoin

open Reader

/-! ## Numbers -/

/-- The number behind some bytes, the least significant first. -/
def leValue : Bytes → Nat
  | [] => 0
  | first :: rest => first.toNat + 256 * leValue rest

theorem leBytes_zero (value : Nat) : leBytes 0 value = [] := rfl

theorem leBytes_succ (width value : Nat) :
    leBytes (width + 1) value = UInt8.ofNat value :: leBytes width (value / 256) := by
  unfold leBytes
  rw [List.range_succ_eq_map, List.map_cons, List.map_map]
  congr 1
  · simp
  · apply List.map_congr_left
    intro i _
    have hpow : (2 : Nat) ^ (8 * (i + 1)) = 256 * 2 ^ (8 * i) := by
      rw [Nat.mul_add, Nat.pow_add, Nat.mul_comm]
    simp only [Function.comp_apply, Nat.succ_eq_add_one]
    rw [hpow, Nat.div_div_eq_div_mul]

@[simp] theorem length_leBytes (width value : Nat) : (leBytes width value).length = width := by
  simp [leBytes]

theorem leValue_leBytes (width value : Nat) :
    leValue (leBytes width value) = value % 256 ^ width := by
  induction width generalizing value with
  | zero => simp [leBytes_zero, leValue, Nat.mod_one]
  | succ width ih =>
    rw [leBytes_succ, leValue, ih, Nat.pow_succ', Nat.mod_mul, UInt8.toNat_ofNat']

/-! ## Loading -/

section Load

-- is the byte order another one?
variable (convert : Bool)

/-- `loadBinary` for a number of `width` bytes. -/
def loadNumber (width : Nat) : Reader Nat := do
  let bytes ← take width
  pure (leValue (if convert then bytes.reverse else bytes))

def loadUInt64 : Reader UInt64 := do
  let value ← loadNumber convert 8
  pure (UInt64.ofNat value)

def loadInt32 : Reader Int32 := do
  let value ← loadNumber convert 4
  pure (UInt32.ofNat value).toInt32

def loadSize : Reader Nat := do
  let size ← loadUInt64 convert
  pure size.toNat

/-- `m = (m << 64); m += buffer`. -/
def shiftIn (hash : Hash) (word : UInt64) : Hash :=
  hash * Fin.ofNat (2 ^ 256) (2 ^ 64) + Fin.ofNat (2 ^ 256) word.toNat

/-- `load` for a hash. -/
def loadHash : Reader Hash := do
  let words ← times (loadUInt64 convert) 4
  pure (words.foldl shiftIn 0)

/-- A text after its length. -/
def loadString : Reader Bytes := do
  let size ← loadSize convert
  take size

/-- A vector after its size. -/
def loadList {α : Type} (load : Reader α) : Reader (List α) := do
  let size ← loadSize convert
  times load size

/-- A map is filled entry by entry; a key that is there already keeps its value. -/
def fillMap {α β : Type} [LinearOrder α] (entries : List (α × β)) : OrdMap α β :=
  entries.foldl (fun map entry => map.touch entry.1 entry.2) ∅

/-- A map after its size. -/
def loadMap {α β : Type} [LinearOrder α] (loadKey : Reader α) (loadValue : Reader β) :
    Reader (OrdMap α β) := do
  let entries ← loadList convert do
    let key ← loadKey
    let value ← loadValue
    pure (key, value)
  pure (fillMap entries)

/-- The enumerator behind a byte. -/
def BlockType.ofByte (code : UInt8) : BlockType :=
  if unnamed : code = 0 ∨ 4 < code then .other code unnamed
  else if code = 1 then .CollectionBlock
  else if code = 2 then .BaselineBlock
  else if code = 3 then .TransactionSubBlock
  else .CreationSubBlock

/-- `ser` of a key, which takes the text as it is. -/
def PublicKeyPEM.load : Reader PublicKeyPEM := do
  let shortString ← loadString convert
  pure { shortString }

/-- The two hashes and the byte of the type, whatever it is. -/
def GenericHeader.load : Reader GenericHeader := do
  let blockHash ← loadHash convert
  let previousBlockHash ← loadHash convert
  let blockType ← byte
  pure { blockHash, previousBlockHash, blockType := BlockType.ofByte blockType }

def BlockHeader.load : Reader BlockHeader := do
  let genericHeader ← GenericHeader.load convert
  let blockUid ← loadUInt64 convert
  pure { genericHeader, blockUid }

def SubBlockHeader.load : Reader SubBlockHeader := do
  let genericHeader ← GenericHeader.load convert
  pure { genericHeader }

def TransactionSubBlock.load : Reader TransactionSubBlock := do
  let header ← SubBlockHeader.load convert
  let fraction ← loadUInt64 convert
  let preOwner ← PublicKeyPEM.load convert
  let postOwner ← PublicKeyPEM.load convert
  let signature ← loadString convert
  pure { header, fraction, preOwner, postOwner, signature }

def CreationSubBlock.load : Reader CreationSubBlock := do
  let header ← SubBlockHeader.load convert
  let dataValue ← loadString convert
  let creator ← PublicKeyPEM.load convert
  let signature ← loadString convert
  pure { header, dataValue, creator, signature }

def MiningState.load : Reader MiningState := do
  let epoch ← loadUInt64 convert
  let highestHashOfLastEpoch ← loadHash convert
  let highestHashOfCurrentEpoch ← loadHash convert
  let numMiningsInEpoch ← loadInt32 convert
  pure { epoch, highestHashOfLastEpoch, highestHashOfCurrentEpoch, numMiningsInEpoch }

/-- `ser` of a baseline, the wallets last. -/
def BaselineBlock.load : Reader BaselineBlock := do
  let header ← BlockHeader.load convert
  let miningState ← MiningState.load convert
  let dataValueHashes ← loadList convert (loadList convert (loadHash convert))
  let wallets ← loadMap convert (PublicKeyPEM.load convert) (loadUInt64 convert)
  pure { header, miningState, dataValueHashes, wallets }

/-- `ser` of a collection: the header and both maps, with the keys they are sent with. -/
def CollectionBlock.load : Reader CollectionBlock := do
  let header ← BlockHeader.load convert
  let transactions ← loadMap convert (loadHash convert) (TransactionSubBlock.load convert)
  let creations ← loadMap convert (loadHash convert) (CreationSubBlock.load convert)
  pure { header, transactions, creations }

end Load

/-- An input archive reads the byte order first. Ours is the one with the number `1`. -/
def unarchive {α : Type} (load : Bool → Reader α) : Reader α := do
  let littleEndian ← byte
  load (littleEndian ^^^ 1 != 0)

/-! ## Sizes -/

/-- The size fits into a size tag. -/
def FitsSize (size : Nat) : Prop := size < 2 ^ 64

instance (size : Nat) : Decidable (FitsSize size) := inferInstanceAs (Decidable (_ < _))

def PublicKeyPEM.Sized (key : PublicKeyPEM) : Prop := FitsSize key.shortString.length

/-- Every text of a transaction fits into its size tag. -/
structure TransactionSubBlock.Sized (block : TransactionSubBlock) : Prop where
  preOwner : block.preOwner.Sized
  postOwner : block.postOwner.Sized
  signature : FitsSize block.signature.length

/-- Every text of a creation fits into its size tag. -/
structure CreationSubBlock.Sized (block : CreationSubBlock) : Prop where
  dataValue : FitsSize block.dataValue.length
  creator : block.creator.Sized
  signature : FitsSize block.signature.length

/-- Every container of a baseline fits into its size tag. -/
structure BaselineBlock.Sized (block : BaselineBlock) : Prop where
  epochs : FitsSize block.dataValueHashes.length
  hashes : ∀ hashes ∈ block.dataValueHashes, FitsSize hashes.length
  wallets : FitsSize block.wallets.size
  keys : ∀ entry ∈ block.wallets, entry.1.Sized

/-- Every container of a collection fits into its size tag. -/
structure CollectionBlock.Sized (block : CollectionBlock) : Prop where
  numTransactions : FitsSize block.transactions.size
  transactions : ∀ entry ∈ block.transactions, entry.2.Sized
  numCreations : FitsSize block.creations.size
  creations : ∀ entry ∈ block.creations, entry.2.Sized

/-! ## Reading back -/

theorem reads_loadNumber (width : Nat) {value : Nat} (h : value < 256 ^ width) :
    Reads (loadNumber false width) (leBytes width value) value := by
  have htake : Reads (take width) (leBytes width value) (leBytes width value) := by
    simpa using reads_take (leBytes width value)
  have hmap := htake.map leValue
  rw [leValue_leBytes, Nat.mod_eq_of_lt h] at hmap
  exact hmap

theorem reads_loadUInt64 (value : UInt64) :
    Reads (loadUInt64 false) (serUInt64 value) value := by
  have hmap := (reads_loadNumber 8 value.toNat_lt).map UInt64.ofNat
  rw [UInt64.ofNat_toNat] at hmap
  exact hmap

theorem reads_loadInt32 (value : Int32) : Reads (loadInt32 false) (serInt32 value) value := by
  have hmap := (reads_loadNumber 4 value.toUInt32.toNat_lt).map
    fun number => (UInt32.ofNat number).toInt32
  rw [UInt32.ofNat_toNat] at hmap
  exact hmap

theorem reads_loadSize {size : Nat} (h : FitsSize size) :
    Reads (loadSize false) (serSize size) size := by
  have hmap := (reads_loadUInt64 (UInt64.ofNat size)).map UInt64.toNat
  rw [UInt64.toNat_ofNat', Nat.mod_eq_of_lt h] at hmap
  exact hmap

theorem reads_loadString {text : Bytes} (h : FitsSize text.length) :
    Reads (loadString false) (serString text) text :=
  (reads_loadSize h).bind (reads_take text)

theorem reads_loadList {α : Type} {load : Reader α} {ser : α → Bytes} {elements : List α}
    (h : FitsSize elements.length)
    (hload : ∀ element ∈ elements, Reads load (ser element) element) :
    Reads (loadList false load) (serList ser elements) elements :=
  (reads_loadSize h).bind (Reads.times hload)

/-- The four words of a hash. -/
def hashWords (hash : Hash) : List UInt64 :=
  [3, 2, 1, 0].map fun i => UInt64.ofNat (hash.val / 2 ^ (i * 64))

theorem foldl_shiftIn_hashWords (hash : Hash) : (hashWords hash).foldl shiftIn 0 = hash := by
  have hlt := hash.isLt
  apply Fin.ext
  simp only [hashWords, List.map_cons, List.map_nil, List.foldl_cons, List.foldl_nil, shiftIn,
    Fin.val_add, Fin.val_mul, Fin.val_ofNat, Fin.val_zero, UInt64.toNat_ofNat']
  omega

theorem reads_loadHash (hash : Hash) : Reads (loadHash false) (serHash hash) hash := by
  have hwords : Reads (times (loadUInt64 false) (hashWords hash).length) (serHash hash)
      (hashWords hash) := Reads.times fun word _ => reads_loadUInt64 word
  have hmap := hwords.map fun words => words.foldl shiftIn 0
  rw [foldl_shiftIn_hashWords] at hmap
  exact hmap

theorem fillMap_entries {α β : Type} [LinearOrder α] (map : OrdMap α β) :
    fillMap map.entries = map := by
  apply OrdMap.ext_mem
  intro entry
  show entry ∈ OrdMap.union ∅ map ↔ entry ∈ map
  rw [OrdMap.mem_union]
  constructor
  · intro h
    exact h.elim (fun he => absurd he (OrdMap.not_mem_empty entry)) fun he => he.1
  · intro he
    exact Or.inr ⟨he, List.not_mem_nil⟩

theorem reads_loadMap {α β : Type} [LinearOrder α] {loadKey : Reader α} {loadValue : Reader β}
    {serKey : α → Bytes} {serValue : β → Bytes} {map : OrdMap α β} (h : FitsSize map.size)
    (hkey : ∀ entry ∈ map, Reads loadKey (serKey entry.1) entry.1)
    (hvalue : ∀ entry ∈ map, Reads loadValue (serValue entry.2) entry.2) :
    Reads (loadMap false loadKey loadValue) (serMap serKey serValue map) map := by
  have hentry : ∀ entry ∈ map.entries, Reads
      (do
        let key ← loadKey
        let value ← loadValue
        pure (key, value)) (serKey entry.1 ++ serValue entry.2) entry := fun entry he =>
    (hkey entry he).bind ((hvalue entry he).map fun value => (entry.1, value))
  have hmap := (reads_loadList h hentry).map fillMap
  rw [fillMap_entries] at hmap
  exact hmap

theorem BlockType.ofByte_toByte (blockType : BlockType) :
    BlockType.ofByte blockType.toByte = blockType := by
  cases blockType with
  | other code unnamed => simp [BlockType.ofByte, BlockType.toByte, unnamed]
  | _ => rfl

/-! ## Blocks -/

theorem PublicKeyPEM.reads_ser {key : PublicKeyPEM} (h : key.Sized) :
    Reads (PublicKeyPEM.load false) key.ser key :=
  (reads_loadString h).map PublicKeyPEM.mk

theorem GenericHeader.reads_ser (header : GenericHeader) :
    Reads (GenericHeader.load false) header.ser header := by
  have htype : Reads (byte >>= fun code => pure
      { header with blockType := BlockType.ofByte code }) [header.blockType.toByte] header := by
    have hmap := (reads_byte header.blockType.toByte).map fun code =>
      ({ header with blockType := BlockType.ofByte code } : GenericHeader)
    rw [BlockType.ofByte_toByte] at hmap
    exact hmap
  rw [GenericHeader.ser, List.append_assoc]
  exact (reads_loadHash _).bind ((reads_loadHash _).bind htype)

theorem BlockHeader.reads_ser (header : BlockHeader) :
    Reads (BlockHeader.load false) header.ser header :=
  header.genericHeader.reads_ser.bind ((reads_loadUInt64 header.blockUid).map (BlockHeader.mk _))

theorem SubBlockHeader.reads_ser (header : SubBlockHeader) :
    Reads (SubBlockHeader.load false) header.ser header :=
  header.genericHeader.reads_ser.map SubBlockHeader.mk

theorem TransactionSubBlock.reads_ser {block : TransactionSubBlock} (h : block.Sized) :
    Reads (TransactionSubBlock.load false) block.ser block := by
  simp only [TransactionSubBlock.ser, List.append_assoc]
  exact block.header.reads_ser.bind ((reads_loadUInt64 _).bind
    ((PublicKeyPEM.reads_ser h.preOwner).bind ((PublicKeyPEM.reads_ser h.postOwner).bind
      ((reads_loadString h.signature).map (TransactionSubBlock.mk _ _ _ _)))))

theorem CreationSubBlock.reads_ser {block : CreationSubBlock} (h : block.Sized) :
    Reads (CreationSubBlock.load false) block.ser block := by
  simp only [CreationSubBlock.ser, List.append_assoc]
  exact block.header.reads_ser.bind ((reads_loadString h.dataValue).bind
    ((PublicKeyPEM.reads_ser h.creator).bind
      ((reads_loadString h.signature).map (CreationSubBlock.mk _ _ _))))

theorem MiningState.reads_ser (state : MiningState) :
    Reads (MiningState.load false) state.ser state := by
  simp only [MiningState.ser, List.append_assoc]
  exact (reads_loadUInt64 _).bind ((reads_loadHash _).bind ((reads_loadHash _).bind
    ((reads_loadInt32 state.numMiningsInEpoch).map (MiningState.mk _ _ _))))

/-- **Baselines are read back.** -/
theorem BaselineBlock.reads_ser {block : BaselineBlock} (h : block.Sized) :
    Reads (BaselineBlock.load false) block.ser block := by
  have hepochs : Reads (loadList false (loadList false (loadHash false)))
      (serList (serList serHash) block.dataValueHashes) block.dataValueHashes :=
    reads_loadList h.epochs fun hashes hmem =>
      reads_loadList (h.hashes hashes hmem) fun hash _ => reads_loadHash hash
  have hwallets : Reads (loadMap false (PublicKeyPEM.load false) (loadUInt64 false))
      (serMap PublicKeyPEM.ser serUInt64 block.wallets) block.wallets :=
    reads_loadMap h.wallets (fun entry he => PublicKeyPEM.reads_ser (h.keys entry he))
      fun entry _ => reads_loadUInt64 entry.2
  simp only [BaselineBlock.ser, List.append_assoc]
  exact block.header.reads_ser.bind (block.miningState.reads_ser.bind
    (hepochs.bind (hwallets.map (BaselineBlock.mk _ _ _))))

/-- **Collections are read back.** -/
theorem CollectionBlock.reads_ser {block : CollectionBlock} (h : block.Sized) :
    Reads (CollectionBlock.load false) block.ser block := by
  have htransactions : Reads (loadMap false (loadHash false) (TransactionSubBlock.load false))
      (serMap serHash TransactionSubBlock.ser block.transactions) block.transactions :=
    reads_loadMap h.numTransactions (fun entry _ => reads_loadHash entry.1)
      fun entry he => TransactionSubBlock.reads_ser (h.transactions entry he)
  have hcreations : Reads (loadMap false (loadHash false) (CreationSubBlock.load false))
      (serMap serHash CreationSubBlock.ser block.creations) block.creations :=
    reads_loadMap h.numCreations (fun entry _ => reads_loadHash entry.1)
      fun entry he => CreationSubBlock.reads_ser (h.creations entry he)
  simp only [CollectionBlock.ser, List.append_assoc]
  exact block.header.reads_ser.bind (htransactions.bind
    (hcreations.map (CollectionBlock.mk _ _)))

/-- The first byte of an archive is the byte order of this machine. -/
theorem reads_archive {α : Type} (load : Bool → Reader α) {bytes : Bytes} {a : α}
    (h : Reads (load false) bytes a) : Reads (unarchive load) (archive bytes) a :=
  (reads_byte 1).bind h

/-! ## What is hashed and signed -/

/-- Bytes that are read back determine what they are the bytes of. -/
theorem eq_of_reads {α : Type} {reader : Reader α} {bytes : Bytes} {a b : α}
    (ha : Reads reader bytes a) (hb : Reads reader bytes b) : a = b :=
  (ha.unique hb (Eq.refl (bytes ++ []))).1

theorem BaselineBlock.ser_inj {block block' : BaselineBlock} (h : block.Sized) (h' : block'.Sized)
    (heq : block.ser = block'.ser) : block = block' :=
  eq_of_reads (reads_ser h) (heq ▸ reads_ser h')

theorem CollectionBlock.ser_inj {block block' : CollectionBlock} (h : block.Sized)
    (h' : block'.Sized) (heq : block.ser = block'.ser) : block = block' :=
  eq_of_reads (reads_ser h) (heq ▸ reads_ser h')

theorem TransactionSubBlock.ser_inj {block block' : TransactionSubBlock} (h : block.Sized)
    (h' : block'.Sized) (heq : block.ser = block'.ser) : block = block' :=
  eq_of_reads (reads_ser h) (heq ▸ reads_ser h')

theorem CreationSubBlock.ser_inj {block block' : CreationSubBlock} (h : block.Sized)
    (h' : block'.Sized) (heq : block.ser = block'.ser) : block = block' :=
  eq_of_reads (reads_ser h) (heq ▸ reads_ser h')

end SwabianCoin
