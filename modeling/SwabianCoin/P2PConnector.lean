import SwabianCoin.Serialization
import SwabianCoin.Blockchain

/-!
# Messages and files

What `P2PConnector` sends, what `receivedMessage` makes of it, and the files of the cache. A
message is an archive with the protocol version, the kind of the message and its contents; a file
is an archive with the block type and the block.

Encoder and decoder are written separately for each kind of message and for the files. `RoundTrips`
says that they fit together.
-/

namespace SwabianCoin

open Reader

/-! ## Contents -/

/-- `BloomFilter`, an array of bytes. -/
structure BloomFilter (mByte : Nat) where
  bits : Bytes
  length : bits.length = mByte
  deriving DecidableEq

/-- The peers that have been heard of, as a filter. -/
structure ActivePeersList where
  activePeersBloomFilter : BloomFilter 8192
  deriving DecidableEq

/-- An array has no size tag. -/
def ActivePeersList.ser (list : ActivePeersList) : Bytes := list.activePeersBloomFilter.bits

/-- The array of the filter, which has no size tag. -/
def ActivePeersList.load : Reader ActivePeersList := fun bytes =>
  if h : 8192 ≤ bytes.length then
    some (⟨⟨bytes.take 8192, List.length_take_of_le h⟩⟩, bytes.drop 8192)
  else none

/-- A flag is a byte. -/
def serBool (flag : Bool) : Bytes := [if flag then 1 else 0]

/-- Any byte but zero is true. -/
def loadBool : Reader Bool := do
  let code ← byte
  pure (code != 0)

/-- `MessageType`, the kinds of messages that are handled. -/
inductive MessageType where
  | PropagateBaselineBlock
  | PropagateCollectionBlock
  | AskForBlock
  | AskForLastBaselineBlock
  | PropagateActivePeersList
  deriving DecidableEq

/-- The byte behind the enumeration. -/
def MessageType.toByte : MessageType → UInt8
  | .PropagateBaselineBlock => 1
  | .PropagateCollectionBlock => 2
  | .AskForBlock => 5
  | .AskForLastBaselineBlock => 6
  | .PropagateActivePeersList => 7

/-- The case of the `switch` that a byte leads to, if not the last one. -/
def MessageType.ofByte (code : UInt8) : Option MessageType :=
  if code = 1 then some .PropagateBaselineBlock
  else if code = 2 then some .PropagateCollectionBlock
  else if code = 5 then some .AskForBlock
  else if code = 6 then some .AskForLastBaselineBlock
  else if code = 7 then some .PropagateActivePeersList
  else none

/-! ## Sending -/

/-- The version every message starts with. -/
def protocolVersion : UInt16 := 1

/-- Every message starts with the version and its kind. -/
def message (type : MessageType) (contents : Bytes) : Bytes :=
  archive (leBytes 2 protocolVersion.toNat ++ ([type.toByte] ++ contents))

/-- A baseline, propagated or in reply to a question. -/
def baselineMessage (block : BaselineBlock) (reply : Bool) : Bytes :=
  message .PropagateBaselineBlock (block.ser ++ serBool reply)

/-- A collection, propagated or in reply to a question. -/
def collectionMessage (block : CollectionBlock) (reply : Bool) : Bytes :=
  message .PropagateCollectionBlock (block.ser ++ serBool reply)

namespace P2PConnector

/-- A question for the block with this id. -/
def askForBlock (uid : BlockUid) : Bytes := message .AskForBlock (serUInt64 uid)

/-- A question for the newest baseline. -/
def askForLastBaselineBlock : Bytes := message .AskForLastBaselineBlock []

/-- A block that is sent to all peers. -/
def propagateBlock : Block → Bytes
  | .baseline block => baselineMessage block false
  | .collection block => collectionMessage block false

def propagateActivePeersList (list : ActivePeersList) : Bytes :=
  message .PropagateActivePeersList list.ser

end P2PConnector

/-! ## Receiving -/

/-- The part of the connector that `receivedMessage` looks at. -/
structure P2PConnector where
  blockchain : Blockchain := {}
  /-- Which of the callbacks are registered. -/
  callbackBaseline : Bool := false
  callbackCollection : Bool := false
  callbackActivePeers : Bool := false
  /-- The peer `send_baseline_thread_` is serving. -/
  peerSendingBaselineTo : Option PeerId := none

/-- What a message can lead to. -/
inductive P2PEffect where
  | ban
  | callbackBaseline (peer : PeerId) (block : BaselineBlock) (reply : Bool)
  | callbackCollection (peer : PeerId) (block : CollectionBlock) (reply : Bool)
  | callbackActivePeers (peer : PeerId) (list : ActivePeersList)
  /-- `send_baseline_thread_` is started for the peer. -/
  | startSendBaselineThread (peer : PeerId)
  /-- A block was looked up for the peer, and sent if it is there. -/
  | answer (peer : PeerId) (uid : BlockUid) (message : Option Bytes)
  deriving DecidableEq

namespace P2PConnector

variable (connector : P2PConnector) (peer : PeerId) (convert : Bool)

/-- The answer to a question for a block. The type in the header decides how the block is cast;
a block that is not of that class cannot be sent. -/
def answer : Block → Option Bytes
  | .baseline block =>
    match block.header.genericHeader.blockType with
    | .CollectionBlock => none
    | _ => some (baselineMessage block true)
  | .collection block =>
    match block.header.genericHeader.blockType with
    | .CollectionBlock => some (collectionMessage block true)
    | _ => none

/-- One case of the `switch` for each kind of message. -/
def receivedContents : MessageType → Reader (Option P2PEffect)
  | .PropagateBaselineBlock =>
    if connector.callbackBaseline then do
      let block ← BaselineBlock.load convert
      let reply ← loadBool
      pure (some (.callbackBaseline peer block reply))
    else pure none
  | .PropagateCollectionBlock =>
    if connector.callbackCollection then do
      let block ← CollectionBlock.load convert
      let reply ← loadBool
      pure (some (.callbackCollection peer block reply))
    else pure none
  | .AskForLastBaselineBlock =>
    pure (if connector.peerSendingBaselineTo = none then some (.startSendBaselineThread peer)
      else none)
  | .AskForBlock =>
    if connector.peerSendingBaselineTo = some peer then pure none
    else do
      let uid ← loadUInt64 convert
      pure (some (.answer peer uid ((connector.blockchain.getBlock uid).bind answer)))
  | .PropagateActivePeersList =>
    if connector.callbackActivePeers then do
      let list ← ActivePeersList.load
      pure (some (.callbackActivePeers peer list))
    else pure none

/-- The version and the kind decide what is read next. -/
def receivedArchive : Reader (Option P2PEffect) := do
  let version ← loadNumber convert 2
  if version ≠ protocolVersion.toNat then pure (some .ban)
  else do
    let code ← byte
    match MessageType.ofByte code with
    | none => pure none
    | some type => connector.receivedContents peer convert type

/-- `receivedMessage`. An archive that cannot be read throws and is only logged. -/
def receivedMessage (message : Bytes) : Option P2PEffect :=
  match unarchive (connector.receivedArchive peer) message with
  | none => none
  | some (effect, _) => effect

/-- The connector after a message: only `peer_sending_baseline_to_` can change. -/
def afterMessage (message : Bytes) : P2PConnector :=
  match connector.receivedMessage peer message with
  | some (.startSendBaselineThread peer) => { connector with peerSendingBaselineTo := some peer }
  | _ => connector

/-- What `send_baseline_thread_` sends: the root block, which is cast without a look at its type. -/
def sendBaselineThread : Option Bytes :=
  match connector.blockchain.getBlock connector.blockchain.getRootBlockId with
  | some (.baseline block) => some (baselineMessage block true)
  | _ => none

end P2PConnector

/-! ## Files -/

/-- The contents of the file `writeBlockToDisk` writes. -/
def blockFile : Block → Bytes
  | .baseline block => archive ([block.header.genericHeader.blockType.toByte] ++ block.ser)
  | .collection block => archive ([block.header.genericHeader.blockType.toByte] ++ block.ser)

/-- The block type in front decides what is read. -/
def loadBlockFile (convert : Bool) : Reader Block := do
  let code ← byte
  match BlockType.ofByte code with
  | .BaselineBlock => do
    let block ← BaselineBlock.load convert
    pure (.baseline block)
  | .CollectionBlock => do
    let block ← CollectionBlock.load convert
    pure (.collection block)
  | _ => failure

/-- The folder of the cache, byte for byte. -/
abbrev BlockFolder := OrdMap BlockUid Bytes

namespace BlockFolder

def writeBlockToDisk (folder : BlockFolder) (block : Block) : BlockFolder :=
  folder.insert block.header.blockUid (blockFile block)

def getBlockFromDisk (folder : BlockFolder) (uid : BlockUid) : Option Block :=
  if uid = 0 then none
  else ((folder.find? uid).bind (unarchive loadBlockFile)).map Prod.fst

end BlockFolder

end SwabianCoin
