import SwabianCoin.P2PConnector

/-!
# What is sent is received

`RoundTrips` collects what the two sides of the wire and the two functions on files promise each
other: every block, id, list and flag arrives as it was sent, in the case of its own kind, and a
block that was written is read. The proof rests on `reads_ser` of the block types and on one lemma
about the head of a message.

A question for a block is not even read while the peer that asks is being sent the baseline, and
`0` is no id to look for on disk.
-/

namespace SwabianCoin

open Reader

/-! ## Statement -/

def Block.Sized : Block → Prop
  | .baseline block => block.Sized
  | .collection block => block.Sized

namespace P2PConnector

/-- All callbacks are registered. -/
structure Registered (connector : P2PConnector) : Prop where
  baseline : connector.callbackBaseline = true
  collection : connector.callbackCollection = true
  activePeers : connector.callbackActivePeers = true

/-- The callback for a block of either kind. -/
def callback (peer : PeerId) (reply : Bool) : Block → P2PEffect
  | .baseline block => .callbackBaseline peer block reply
  | .collection block => .callbackCollection peer block reply

/-- A message with a block of either kind. -/
def blockMessage (reply : Bool) : Block → Bytes
  | .baseline block => baselineMessage block reply
  | .collection block => collectionMessage block reply

end P2PConnector

/-- Bytes that determine all fields but the hash. -/
def HashBinds (β : Type) [Hashed β] (Sized : β → Prop) : Prop :=
  ∀ block block' : β, Sized block → Sized block' →
    archive (Hashed.ser (Hashed.withBlockHash block 0)) =
      archive (Hashed.ser (Hashed.withBlockHash block' 0)) →
    Hashed.withBlockHash block 0 = Hashed.withBlockHash block' 0

/-- Bytes that determine all fields but the hash and the signature. -/
def SignatureBinds (β : Type) [Signed β] (Sized : β → Prop) : Prop :=
  ∀ block block' : β, Sized block → Sized block' →
    CryptoHelper.signedBytes block = CryptoHelper.signedBytes block' →
    Signed.withSignature (Hashed.withBlockHash block 0) [] =
      Signed.withSignature (Hashed.withBlockHash block' 0) []

/-- The formats of the wire and of the disk. -/
structure RoundTrips (connector : P2PConnector) (peer : PeerId) : Prop where
  /-- Blocks and flags reach the callback of their kind. -/
  blocks : connector.Registered → ∀ block reply, block.Sized →
    connector.receivedMessage peer (P2PConnector.blockMessage reply block) =
      some (P2PConnector.callback peer reply block)
  /-- Propagated blocks are no replies. -/
  propagated : connector.Registered → ∀ block, block.Sized →
    connector.receivedMessage peer (P2PConnector.propagateBlock block) =
      some (P2PConnector.callback peer false block)
  /-- Lists of active peers arrive. -/
  activePeers : connector.Registered → ∀ list,
    connector.receivedMessage peer (P2PConnector.propagateActivePeersList list) =
      some (.callbackActivePeers peer list)
  /-- The block that is looked up is the one that was asked for. -/
  asked : connector.peerSendingBaselineTo ≠ some peer → ∀ uid,
    connector.receivedMessage peer (P2PConnector.askForBlock uid) =
      some (.answer peer uid ((connector.blockchain.getBlock uid).bind P2PConnector.answer))
  /-- A block that is asked for arrives as a reply. -/
  answered : connector.Registered → ∀ (asked : P2PConnector) (self : PeerId) uid block,
    asked.peerSendingBaselineTo ≠ some self → asked.blockchain.getBlock uid = some block →
    block.WellTyped → block.Sized →
    ∃ message, asked.receivedMessage self (P2PConnector.askForBlock uid) =
        some (.answer self uid (some message)) ∧
      connector.receivedMessage peer message = some (P2PConnector.callback peer true block)
  /-- The root arrives as a reply, too. -/
  rootAnswered : connector.Registered → ∀ (asked : P2PConnector) (root : BaselineBlock),
    asked.blockchain.getBlock asked.blockchain.getRootBlockId = some (.baseline root) →
    root.Sized →
    ∃ message, asked.sendBaselineThread = some message ∧
      connector.receivedMessage peer message = some (.callbackBaseline peer root true)
  /-- A block with a valid id that was written is read. -/
  files : ∀ (folder : BlockFolder) (block : Block), block.WellTyped → block.Sized →
    block.header.blockUid ≠ 0 →
    (folder.writeBlockToDisk block).getBlockFromDisk block.header.blockUid = some block
  /-- What is hashed and signed binds every field. -/
  baselineHash : HashBinds BaselineBlock BaselineBlock.Sized
  collectionHash : HashBinds CollectionBlock CollectionBlock.Sized
  transactionHash : HashBinds TransactionSubBlock TransactionSubBlock.Sized
  creationHash : HashBinds CreationSubBlock CreationSubBlock.Sized
  transactionSignature : SignatureBinds TransactionSubBlock TransactionSubBlock.Sized
  creationSignature : SignatureBinds CreationSubBlock CreationSubBlock.Sized

/-! ## Messages -/

theorem reads_loadBool (flag : Bool) : Reads loadBool (serBool flag) flag := by
  cases flag <;> exact fun _ => rfl

theorem ActivePeersList.reads_ser (list : ActivePeersList) :
    Reads ActivePeersList.load list.ser list := by
  intro rest
  have hlength := list.activePeersBloomFilter.length
  have hle : 8192 ≤ (list.ser ++ rest).length := by
    rw [List.length_append]
    exact le_add_right (le_of_eq hlength.symm)
  have htake : (list.ser ++ rest).take 8192 = list.ser := List.take_left' hlength
  have hdrop : (list.ser ++ rest).drop 8192 = rest := List.drop_left' hlength
  rw [ActivePeersList.load, dif_pos hle]
  simp only [htake, hdrop]
  rfl

theorem MessageType.ofByte_toByte (type : MessageType) :
    MessageType.ofByte type.toByte = some type := by
  cases type <;> rfl

namespace P2PConnector

variable {connector : P2PConnector} {peer : PeerId}

/-- **The head of a message** leads to the case of its kind, which reads the contents. -/
theorem unarchive_message {type : MessageType} {contents rest : Bytes} {effect : Option P2PEffect}
    (h : Reads (connector.receivedContents peer false type) contents effect) :
    unarchive (connector.receivedArchive peer) (message type (contents ++ rest)) =
      some (effect, rest) := by
  have hread : Reads (unarchive (connector.receivedArchive peer)) (message type contents)
      effect := by
    apply reads_archive
    refine (reads_loadNumber 2 (by decide)).bind ?_
    rw [if_neg (not_not.2 rfl)]
    refine (reads_byte type.toByte).bind ?_
    rw [MessageType.ofByte_toByte]
    exact h
  have hsplit : message type (contents ++ rest) = message type contents ++ rest := by
    simp only [message, archive, List.cons_append, List.append_assoc]
  rw [hsplit]
  exact hread rest

theorem receivedMessage_message {type : MessageType} {contents : Bytes} {effect : Option P2PEffect}
    (h : Reads (connector.receivedContents peer false type) contents effect) :
    connector.receivedMessage peer (message type contents) = effect := by
  rw [receivedMessage, ← List.append_nil contents, unarchive_message h]

theorem reads_baselineContents (h : connector.callbackBaseline = true) {block : BaselineBlock}
    (hsized : block.Sized) (reply : Bool) :
    Reads (connector.receivedContents peer false .PropagateBaselineBlock)
      (block.ser ++ serBool reply) (some (.callbackBaseline peer block reply)) := by
  rw [receivedContents, if_pos h]
  exact (BaselineBlock.reads_ser hsized).bind ((reads_loadBool reply).map _)

theorem reads_collectionContents (h : connector.callbackCollection = true)
    {block : CollectionBlock} (hsized : block.Sized) (reply : Bool) :
    Reads (connector.receivedContents peer false .PropagateCollectionBlock)
      (block.ser ++ serBool reply) (some (.callbackCollection peer block reply)) := by
  rw [receivedContents, if_pos h]
  exact (CollectionBlock.reads_ser hsized).bind ((reads_loadBool reply).map _)

theorem reads_activePeersContents (h : connector.callbackActivePeers = true)
    (list : ActivePeersList) :
    Reads (connector.receivedContents peer false .PropagateActivePeersList) list.ser
      (some (.callbackActivePeers peer list)) := by
  rw [receivedContents, if_pos h]
  exact list.reads_ser.map _

theorem receivedMessage_blockMessage (h : connector.Registered) (block : Block) (reply : Bool)
    (hsized : block.Sized) :
    connector.receivedMessage peer (blockMessage reply block) =
      some (callback peer reply block) := by
  cases block with
  | baseline block => exact receivedMessage_message (reads_baselineContents h.baseline hsized reply)
  | collection block =>
    exact receivedMessage_message (reads_collectionContents h.collection hsized reply)

theorem receivedMessage_askForBlock (h : connector.peerSendingBaselineTo ≠ some peer)
    (uid : BlockUid) :
    connector.receivedMessage peer (askForBlock uid) =
      some (.answer peer uid ((connector.blockchain.getBlock uid).bind answer)) := by
  apply receivedMessage_message
  rw [receivedContents, if_neg h]
  exact (reads_loadUInt64 uid).map _

theorem receivedMessage_propagateActivePeersList (h : connector.Registered)
    (list : ActivePeersList) :
    connector.receivedMessage peer (propagateActivePeersList list) =
      some (.callbackActivePeers peer list) :=
  receivedMessage_message (reads_activePeersContents h.activePeers list)

/-- The type in the header is the right one for the cast. -/
theorem answer_of_wellTyped {block : Block} (h : block.WellTyped) :
    answer block = some (blockMessage true block) := by
  cases block with
  | baseline block =>
    have htype : block.header.genericHeader.blockType = .BaselineBlock := h
    simp only [answer, htype, blockMessage]
  | collection block =>
    have htype : block.header.genericHeader.blockType = .CollectionBlock := h
    simp only [answer, htype, blockMessage]

end P2PConnector

/-! ## Files -/

theorem reads_blockFile {block : Block} (htyped : block.WellTyped) (hsized : block.Sized) :
    Reads (unarchive loadBlockFile) (blockFile block) block := by
  cases block with
  | baseline block =>
    have htype : block.header.genericHeader.blockType = .BaselineBlock := htyped
    rw [blockFile, htype]
    exact reads_archive _ ((reads_byte _).bind ((BaselineBlock.reads_ser hsized).map _))
  | collection block =>
    have htype : block.header.genericHeader.blockType = .CollectionBlock := htyped
    rw [blockFile, htype]
    exact reads_archive _ ((reads_byte _).bind ((CollectionBlock.reads_ser hsized).map _))

namespace BlockFolder

/-- Writing a block changes what is read under its id, and nothing else. -/
theorem getBlockFromDisk_writeBlockToDisk (folder : BlockFolder) {block : Block}
    (htyped : block.WellTyped) (hsized : block.Sized) {uid : BlockUid} (huid : uid ≠ 0) :
    (folder.writeBlockToDisk block).getBlockFromDisk uid =
      if uid = block.header.blockUid then some block else folder.getBlockFromDisk uid := by
  simp only [getBlockFromDisk, writeBlockToDisk, if_neg huid, OrdMap.find?_insert]
  split_ifs with heq
  · have hread := reads_blockFile htyped hsized []
    rw [List.append_nil] at hread
    rw [Option.bind_some, hread, Option.map_some]
  · rfl

/-- The files hold the blocks of the cache. -/
def Holds (folder : BlockFolder) (cache : Cache) : Prop :=
  ∀ uid, folder.getBlockFromDisk uid = cache.getBlockFromDisk uid

/-- **The cache may speak of blocks instead of bytes.** -/
theorem Holds.writeBlockToDisk {folder : BlockFolder} {cache : Cache} (h : folder.Holds cache)
    {block : Block} (htyped : block.WellTyped) (hsized : block.Sized) :
    (folder.writeBlockToDisk block).Holds (cache.writeBlockToDisk block) := by
  intro uid
  by_cases huid : uid = 0
  · simp [huid, getBlockFromDisk, Cache.getBlockFromDisk]
  · have hbefore := h uid
    rw [getBlockFromDisk_writeBlockToDisk folder htyped hsized huid, hbefore]
    simp only [Cache.getBlockFromDisk, Cache.writeBlockToDisk, if_neg huid, OrdMap.find?_insert]

end BlockFolder

/-! ## Bytes that bind -/

/-- Serialisations that are read back bind what they serialise. -/
theorem hashBinds_of_inj {β : Type} [Hashed β] {Sized : β → Prop}
    (hsized : ∀ block, Sized block → Sized (Hashed.withBlockHash block 0))
    (hinj : ∀ block block' : β, Sized block → Sized block' →
      Hashed.ser block = Hashed.ser block' → block = block') : HashBinds β Sized := by
  intro block block' h h' heq
  exact hinj _ _ (hsized block h) (hsized block' h') (List.cons.inj heq).2

theorem signatureBinds_of_inj {β : Type} [Signed β] {Sized : β → Prop}
    (hsized : ∀ block, Sized block →
      Sized (Signed.withSignature (Hashed.withBlockHash block 0) []))
    (hinj : ∀ block block' : β, Sized block → Sized block' →
      Hashed.ser block = Hashed.ser block' → block = block') : SignatureBinds β Sized := by
  intro block block' h h' heq
  exact hinj _ _ (hsized block h) (hsized block' h') (List.cons.inj heq).2

theorem fitsSize_zero : FitsSize ([] : Bytes).length := by
  unfold FitsSize
  decide

/-- **What is sent is received, and what is written is read.** -/
theorem roundTrips (connector : P2PConnector) (peer : PeerId) : RoundTrips connector peer where
  blocks hregistered block reply hsized :=
    P2PConnector.receivedMessage_blockMessage hregistered block reply hsized
  propagated hregistered block hsized := by
    have hmessage : P2PConnector.propagateBlock block = P2PConnector.blockMessage false block := by
      cases block <;> rfl
    rw [hmessage]
    exact P2PConnector.receivedMessage_blockMessage hregistered block false hsized
  activePeers hregistered list :=
    P2PConnector.receivedMessage_propagateActivePeersList hregistered list
  asked hfree uid := P2PConnector.receivedMessage_askForBlock hfree uid
  answered hregistered asked self uid block hfree hblock htyped hsized := by
    refine ⟨P2PConnector.blockMessage true block, ?_,
      P2PConnector.receivedMessage_blockMessage hregistered block true hsized⟩
    rw [P2PConnector.receivedMessage_askForBlock hfree uid, hblock, Option.bind_some,
      P2PConnector.answer_of_wellTyped htyped]
  rootAnswered hregistered asked root hroot hsized := by
    refine ⟨baselineMessage root true, ?_,
      P2PConnector.receivedMessage_blockMessage hregistered (.baseline root) true hsized⟩
    rw [P2PConnector.sendBaselineThread, hroot]
  files folder block htyped hsized huid := by
    rw [folder.getBlockFromDisk_writeBlockToDisk htyped hsized huid, if_pos rfl]
  baselineHash := hashBinds_of_inj (fun _ h => ⟨h.epochs, h.hashes, h.wallets, h.keys⟩)
    fun _ _ h h' => BaselineBlock.ser_inj h h'
  collectionHash := hashBinds_of_inj
    (fun _ h => ⟨h.numTransactions, h.transactions, h.numCreations, h.creations⟩)
    fun _ _ h h' => CollectionBlock.ser_inj h h'
  transactionHash := hashBinds_of_inj (fun _ h => ⟨h.preOwner, h.postOwner, h.signature⟩)
    fun _ _ h h' => TransactionSubBlock.ser_inj h h'
  creationHash := hashBinds_of_inj (fun _ h => ⟨h.dataValue, h.creator, h.signature⟩)
    fun _ _ h h' => CreationSubBlock.ser_inj h h'
  transactionSignature :=
    signatureBinds_of_inj (fun _ h => ⟨h.preOwner, h.postOwner, fitsSize_zero⟩)
      fun _ _ h h' => TransactionSubBlock.ser_inj h h'
  creationSignature :=
    signatureBinds_of_inj (fun _ h => ⟨h.dataValue, h.creator, fitsSize_zero⟩)
      fun _ _ h h' => CreationSubBlock.ser_inj h h'

namespace Sample

/-- A collection that never got an id. -/
def unplacedBlock : Block := .collection {}

end Sample

/-- A block with the id `0` has the type of its class and is written, but it is not read; and a
peer that is being sent the baseline asks in vain. -/
theorem block_zero_not_read :
    Sample.unplacedBlock.WellTyped ∧
      (BlockFolder.writeBlockToDisk ∅ Sample.unplacedBlock).getBlockFromDisk
        Sample.unplacedBlock.header.blockUid = none ∧
      (¬ ∀ (folder : BlockFolder) (block : Block), block.WellTyped → block.Sized →
        (folder.writeBlockToDisk block).getBlockFromDisk block.header.blockUid = some block) ∧
      P2PConnector.receivedMessage { peerSendingBaselineTo := some [65] } [65]
        (P2PConnector.askForBlock 1) = none := by
  have hsized : Sample.unplacedBlock.Sized :=
    ⟨fitsSize_zero, fun _ he => absurd he (OrdMap.not_mem_empty _), fitsSize_zero,
      fun _ he => absurd he (OrdMap.not_mem_empty _)⟩
  refine ⟨rfl, rfl, ?_, by decide +kernel⟩
  intro h
  have hread := h ∅ Sample.unplacedBlock rfl hsized
  cases hread

end SwabianCoin
