import Mathlib.Logic.Relation
import SwabianCoin.RoundTrip

/-!
# What a message can lead to

Bytes come from anywhere. Whatever an archive makes of them fits into the size tags it will be
written with when it is passed on (`yields_load`), and a message starts a transfer of a baseline or
is answered only under the conditions of its case of the `switch` (`receivedMessage_dueTo`).

So a block does not change any more once it has been read from any bytes, however long it is passed
from node to node and between memory and files (`relayed_unchanged`).
-/

namespace SwabianCoin

open Reader

/-! ## Sizes -/

section Load

variable (convert : Bool)

theorem yields_loadSize : Yields (loadSize convert) FitsSize :=
  (yields_any _).map fun size _ => size.toNat_lt

theorem yields_loadString : Yields (loadString convert) fun text => FitsSize text.length := by
  refine (yields_loadSize convert).bind fun size hsize => ?_
  intro bytes text rest hread
  rw [yields_take size bytes text rest hread]
  exact hsize

theorem yields_loadList {α : Type} {load : Reader α} {P : α → Prop} (h : Yields load P) :
    Yields (loadList convert load) fun elements =>
      FitsSize elements.length ∧ ∀ element ∈ elements, P element := by
  refine (yields_loadSize convert).bind fun size hsize => ?_
  intro bytes elements rest hread
  obtain ⟨hlength, hall⟩ := h.times size bytes elements rest hread
  rw [hlength]
  exact ⟨hsize, hall⟩

theorem fillMap_entries_le {α β : Type} [LinearOrder α] (entries : List (α × β)) :
    (fillMap entries).size ≤ entries.length ∧ ∀ entry ∈ fillMap entries, entry ∈ entries := by
  induction entries using List.reverseRecOn with
  | nil => exact ⟨Nat.le_refl _, fun entry he => absurd he (OrdMap.not_mem_empty entry)⟩
  | append_singleton entries last ih =>
    have hstep : fillMap (entries ++ [last]) = (fillMap entries).touch last.1 last.2 := by
      simp [fillMap]
    rw [hstep, List.length_append]
    refine ⟨?_, fun entry he => ?_⟩
    · unfold OrdMap.touch
      split_ifs
      · exact Nat.le_add_right_of_le ih.1
      · exact (OrdMap.size_insert_le _ _ _).trans (Nat.add_le_add_right ih.1 1)
    · rcases OrdMap.mem_touch.1 he with hold | ⟨rfl, -⟩
      · exact List.mem_append_left _ (ih.2 entry hold)
      · exact List.mem_append_right _ (List.mem_singleton_self _)

theorem yields_loadMap {α β : Type} [LinearOrder α] {loadKey : Reader α} {loadValue : Reader β}
    {P : α → Prop} {Q : β → Prop} (hkey : Yields loadKey P) (hvalue : Yields loadValue Q) :
    Yields (loadMap convert loadKey loadValue) fun map =>
      FitsSize map.size ∧ ∀ entry ∈ map, P entry.1 ∧ Q entry.2 := by
  have hentry : Yields (do
      let key ← loadKey
      let value ← loadValue
      pure (key, value)) fun entry => P entry.1 ∧ Q entry.2 :=
    hkey.bind fun key hk => hvalue.map fun value hv => ⟨hk, hv⟩
  refine (yields_loadList convert hentry).map fun entries hentries => ?_
  obtain ⟨hsize, hall⟩ := fillMap_entries_le entries
  exact ⟨Nat.lt_of_le_of_lt hsize hentries.1, fun entry he => hentries.2 entry (hall entry he)⟩

theorem PublicKeyPEM.yields_load : Yields (PublicKeyPEM.load convert) PublicKeyPEM.Sized :=
  (yields_loadString convert).map fun _ h => h

theorem TransactionSubBlock.yields_load :
    Yields (TransactionSubBlock.load convert) TransactionSubBlock.Sized :=
  (yields_any _).bind fun _ _ => (yields_any _).bind fun _ _ =>
    (PublicKeyPEM.yields_load convert).bind fun _ hpre =>
      (PublicKeyPEM.yields_load convert).bind fun _ hpost =>
        (yields_loadString convert).map fun _ hsignature => ⟨hpre, hpost, hsignature⟩

theorem CreationSubBlock.yields_load :
    Yields (CreationSubBlock.load convert) CreationSubBlock.Sized :=
  (yields_any _).bind fun _ _ => (yields_loadString convert).bind fun _ hvalue =>
    (PublicKeyPEM.yields_load convert).bind fun _ hcreator =>
      (yields_loadString convert).map fun _ hsignature => ⟨hvalue, hcreator, hsignature⟩

theorem BaselineBlock.yields_load : Yields (BaselineBlock.load convert) BaselineBlock.Sized := by
  refine (yields_any _).bind fun _ _ => (yields_any _).bind fun _ _ => ?_
  refine (yields_loadList convert (yields_loadList convert (yields_any _))).bind
    fun _ hhashes => ?_
  refine (yields_loadMap convert (PublicKeyPEM.yields_load convert) (yields_any _)).map
    fun _ hwallets => ?_
  exact ⟨hhashes.1, fun hashes hmem => (hhashes.2 hashes hmem).1, hwallets.1,
    fun entry he => (hwallets.2 entry he).1⟩

theorem CollectionBlock.yields_load :
    Yields (CollectionBlock.load convert) CollectionBlock.Sized := by
  refine (yields_any _).bind fun _ _ => ?_
  refine (yields_loadMap convert (yields_any _) (TransactionSubBlock.yields_load convert)).bind
    fun _ htransactions => ?_
  refine (yields_loadMap convert (yields_any _) (CreationSubBlock.yields_load convert)).map
    fun _ hcreations => ?_
  exact ⟨htransactions.1, fun entry he => (htransactions.2 entry he).2, hcreations.1,
    fun entry he => (hcreations.2 entry he).2⟩

end Load

/-- What is written in few bytes has few parts, and each of them is written in few bytes. -/
theorem serList_length {α : Type} {ser : α → Bytes} {elements : List α} {bound : Nat}
    (h : (serList ser elements).length < bound) :
    (∀ element ∈ elements, (ser element).length < bound) ∧
      ((∀ element ∈ elements, 0 < (ser element).length) → elements.length < bound) := by
  rw [serList, List.length_append, List.length_flatMap] at h
  have hsum : (elements.map fun element => (ser element).length).sum < bound := by omega
  refine ⟨fun element hmem => ?_, fun hpos => ?_⟩
  · exact (List.single_le_sum (by simp) _ (List.mem_map_of_mem hmem)).trans_lt hsum
  · have hlength := List.length_le_sum_of_one_le (elements.map fun element => (ser element).length)
      (List.forall_mem_map.2 hpos)
    rw [List.length_map] at hlength
    exact hlength.trans_lt hsum

theorem serMap_length {β : Type} {serValue : β → Bytes} {map : OrdMap Hash β}
    (h : (serMap serHash serValue map).length < 2 ^ 64) :
    FitsSize map.size ∧ ∀ entry ∈ map, (serValue entry.2).length < 2 ^ 64 := by
  have hkey : ∀ hash, (serHash hash).length = 32 := by simp [serHash, serUInt64]
  obtain ⟨hentries, hsize⟩ := serList_length h
  refine ⟨hsize fun entry _ => ?_, fun entry hmem => ?_⟩
  · rw [List.length_append, hkey]
    omega
  · have hentry := hentries entry hmem
    rw [List.length_append] at hentry
    omega

theorem TransactionSubBlock.sized_of_length {block : TransactionSubBlock}
    (h : block.ser.length < 2 ^ 64) : block.Sized := by
  simp only [TransactionSubBlock.ser, PublicKeyPEM.ser, serString, List.length_append] at h
  refine ⟨?_, ?_, ?_⟩ <;> simp only [PublicKeyPEM.Sized, FitsSize] <;> omega

theorem CreationSubBlock.sized_of_length {block : CreationSubBlock}
    (h : block.ser.length < 2 ^ 64) : block.Sized := by
  simp only [CreationSubBlock.ser, PublicKeyPEM.ser, serString, List.length_append] at h
  refine ⟨?_, ?_, ?_⟩ <;> simp only [PublicKeyPEM.Sized, FitsSize] <;> omega

/-- A block that is written in few bytes fits into its size tags. -/
theorem CollectionBlock.sized_of_length {block : CollectionBlock}
    (h : block.ser.length < 2 ^ 64) : block.Sized := by
  rw [CollectionBlock.ser, List.length_append, List.length_append] at h
  have htransactions :
      (serMap serHash TransactionSubBlock.ser block.transactions).length < 2 ^ 64 := by omega
  have hcreations : (serMap serHash CreationSubBlock.ser block.creations).length < 2 ^ 64 := by
    omega
  obtain ⟨hnumTransactions, htransaction⟩ := serMap_length htransactions
  obtain ⟨hnumCreations, hcreation⟩ := serMap_length hcreations
  exact ⟨hnumTransactions,
    fun entry hmem => TransactionSubBlock.sized_of_length (htransaction entry hmem),
    hnumCreations, fun entry hmem => CreationSubBlock.sized_of_length (hcreation entry hmem)⟩

theorem BaselineBlock.sized_of_length {block : BaselineBlock}
    (h : block.ser.length < 2 ^ 64) : block.Sized := by
  rw [BaselineBlock.ser, List.length_append, List.length_append] at h
  have hepochs : (serList (serList serHash) block.dataValueHashes).length < 2 ^ 64 := by omega
  have hwallets : (serMap PublicKeyPEM.ser serUInt64 block.wallets).length < 2 ^ 64 := by omega
  obtain ⟨hhashes, hnumEpochs⟩ := serList_length hepochs
  obtain ⟨hentries, hnumWallets⟩ := serList_length hwallets
  refine ⟨hnumEpochs fun hashes _ => ?_, fun hashes hmem => ?_, hnumWallets fun entry _ => ?_,
    fun entry hmem => ?_⟩
  · simp [serList, serSize, serUInt64]
  · exact (serList_length (hhashes hashes hmem)).2 fun hash _ => by simp [serHash, serUInt64]
  · simp [serUInt64]
  · have hentry := hentries entry hmem
    simp only [PublicKeyPEM.ser, serString, List.length_append] at hentry
    simp only [PublicKeyPEM.Sized, FitsSize]
    omega

/-! ## Effects -/

/-- What must be so for an effect of a message. -/
def P2PEffect.DueTo (connector : P2PConnector) (peer : PeerId) : P2PEffect → Prop
  | .ban => True
  | .callbackBaseline other block _ => other = peer ∧ block.Sized
  | .callbackCollection other block _ => other = peer ∧ block.Sized
  | .callbackActivePeers other _ => other = peer
  | .startSendBaselineThread other => other = peer ∧ connector.peerSendingBaselineTo = none
  | .answer other uid reply =>
    other = peer ∧ connector.peerSendingBaselineTo ≠ some peer ∧
      reply = (connector.blockchain.getBlock uid).bind P2PConnector.answer

namespace P2PConnector

variable (connector : P2PConnector) (peer : PeerId)

theorem yields_receivedContents (convert : Bool) (type : MessageType) :
    Yields (connector.receivedContents peer convert type)
      fun effect => ∀ e ∈ effect, e.DueTo connector peer := by
  have hnone : Yields (pure none : Reader (Option P2PEffect))
      fun effect => ∀ e ∈ effect, e.DueTo connector peer :=
    Yields.pure fun e he => absurd he (Option.not_mem_none e)
  cases type with
  | PropagateBaselineBlock =>
    rw [receivedContents]
    split_ifs
    · refine (BaselineBlock.yields_load convert).bind fun block hblock =>
        (yields_any _).map fun reply _ => ?_
      rintro _ ⟨⟩
      exact ⟨rfl, hblock⟩
    · exact hnone
  | PropagateCollectionBlock =>
    rw [receivedContents]
    split_ifs
    · refine (CollectionBlock.yields_load convert).bind fun block hblock =>
        (yields_any _).map fun reply _ => ?_
      rintro _ ⟨⟩
      exact ⟨rfl, hblock⟩
    · exact hnone
  | AskForBlock =>
    rw [receivedContents]
    split_ifs with hbusy
    · exact hnone
    · refine (yields_any _).map fun uid _ => ?_
      rintro _ ⟨⟩
      exact ⟨rfl, hbusy, rfl⟩
  | AskForLastBaselineBlock =>
    rw [receivedContents]
    split_ifs with hfree
    · refine Yields.pure ?_
      rintro _ ⟨⟩
      exact ⟨rfl, hfree⟩
    · exact hnone
  | PropagateActivePeersList =>
    rw [receivedContents]
    split_ifs
    · refine (yields_any _).map fun list _ => ?_
      rintro _ ⟨⟩
      rfl
    · exact hnone

/-- **A message and its effect.** -/
theorem receivedMessage_dueTo {message : Bytes} {effect : P2PEffect}
    (h : connector.receivedMessage peer message = some effect) : effect.DueTo connector peer := by
  have harchive : Yields (unarchive (connector.receivedArchive peer))
      fun effect => ∀ e ∈ effect, e.DueTo connector peer := by
    refine (yields_any _).bind fun _ _ => (yields_any _).bind fun version _ => ?_
    split_ifs
    · refine Yields.pure ?_
      rintro _ ⟨⟩
      trivial
    · refine (yields_any _).bind fun code _ => ?_
      cases MessageType.ofByte code with
      | none => exact Yields.pure fun e he => absurd he (Option.not_mem_none e)
      | some type => exact connector.yields_receivedContents peer _ type
  unfold receivedMessage at h
  split at h
  · cases h
  · next effect' rest hread => exact harchive _ _ _ hread effect h

/-- A message leads to the case of its kind, whatever its contents are. -/
theorem unarchive_eq_receivedContents (type : MessageType) (contents : Bytes) :
    unarchive (connector.receivedArchive peer) (message type contents) =
      connector.receivedContents peer false type contents := by
  have hversion := reads_loadNumber 2 (by decide : protocolVersion.toNat < 256 ^ 2)
  have hkind := reads_byte type.toByte
  have harchive : unarchive (connector.receivedArchive peer) (message type contents) =
      connector.receivedArchive peer false
        (leBytes 2 protocolVersion.toNat ++ ([type.toByte] ++ contents)) := rfl
  rw [harchive, receivedArchive, hversion.bind_append, if_neg (not_not.2 rfl), hkind.bind_append,
    MessageType.ofByte_toByte]

theorem receivedMessage_other {type : MessageType} (h : type ≠ .PropagateCollectionBlock)
    (contents : Bytes) (sender : PeerId) (block : CollectionBlock) (reply : Bool) :
    connector.receivedMessage peer (message type contents) ≠
      some (.callbackCollection sender block reply) := by
  have hcontents : Yields (connector.receivedContents peer false type) fun effect =>
      effect ≠ some (.callbackCollection sender block reply) := by
    cases type with
    | PropagateBaselineBlock =>
      rw [receivedContents]
      split_ifs
      · exact (yields_any _).bind fun _ _ => (yields_any _).map fun _ _ => by simp
      · exact Yields.pure (by simp)
    | PropagateCollectionBlock => exact absurd rfl h
    | AskForBlock =>
      rw [receivedContents]
      split_ifs
      · exact Yields.pure (by simp)
      · exact (yields_any _).map fun _ _ => by simp
    | AskForLastBaselineBlock =>
      rw [receivedContents]
      split_ifs <;> exact Yields.pure (by simp)
    | PropagateActivePeersList =>
      rw [receivedContents]
      split_ifs
      · exact (yields_any _).map fun _ _ => by simp
      · exact Yields.pure (by simp)
  rw [receivedMessage, unarchive_eq_receivedContents]
  split
  · simp
  · next effect rest hread => exact hcontents _ _ _ hread

end P2PConnector

/-! ## Passing blocks on -/

/-- A block becomes another one on its way through a message or a file. -/
inductive Carried (block : Block) : Block → Prop
  /-- Sent to another node, propagated or as an answer. -/
  | message {connector : P2PConnector} {peer : PeerId} {reply reply' : Bool} {block' : Block}
      (hregistered : connector.Registered)
      (h : connector.receivedMessage peer (P2PConnector.blockMessage reply block) =
        some (P2PConnector.callback peer reply' block')) : Carried block block'
  /-- Moved to the folder and read from there. -/
  | file {folder : BlockFolder} {block' : Block}
      (h : (folder.writeBlockToDisk block).getBlockFromDisk block.header.blockUid = some block') :
      Carried block block'

theorem P2PConnector.callback_inj {peer peer' : PeerId} {reply reply' : Bool} {block block' : Block}
    (h : callback peer reply block = callback peer' reply' block') : block = block' := by
  cases block <;> cases block' <;> cases h <;> rfl

theorem P2PConnector.sized_of_receivedMessage {connector : P2PConnector} {peer : PeerId}
    {message : Bytes} {reply : Bool} {block : Block}
    (h : connector.receivedMessage peer message = some (callback peer reply block)) :
    block.Sized := by
  have hdue := connector.receivedMessage_dueTo peer h
  cases block with
  | baseline block => exact hdue.2
  | collection block => exact hdue.2

theorem Carried.eq {block block' : Block} (h : Carried block block') (htyped : block.WellTyped)
    (hsized : block.Sized) : block' = block := by
  cases h with
  | message hregistered h =>
    rw [P2PConnector.receivedMessage_blockMessage hregistered block _ hsized] at h
    exact (P2PConnector.callback_inj (Option.some.inj h)).symm
  | @file folder _ h =>
    by_cases huid : block.header.blockUid = 0
    · simp [BlockFolder.getBlockFromDisk, huid] at h
    · rw [folder.getBlockFromDisk_writeBlockToDisk htyped hsized huid, if_pos rfl] at h
      exact (Option.some.inj h).symm

/-- **Blocks are passed on unchanged.** A block that was read from any bytes, and whose header has
the type of its class, is the same after any way through any number of nodes and folders, and from
there it can be passed on again. -/
theorem relayed_unchanged {connector : P2PConnector} {peer : PeerId} {message : Bytes}
    {reply : Bool} {block block' : Block}
    (h : connector.receivedMessage peer message = some (P2PConnector.callback peer reply block))
    (htyped : block.WellTyped) (hroute : Relation.ReflTransGen Carried block block') :
    block' = block ∧
    (∀ (other : P2PConnector) (sender : PeerId) (again : Bool), other.Registered →
      other.receivedMessage sender (P2PConnector.blockMessage again block') =
        some (P2PConnector.callback sender again block)) ∧
    (block.header.blockUid ≠ 0 → ∀ folder : BlockFolder,
      (folder.writeBlockToDisk block').getBlockFromDisk block.header.blockUid = some block) := by
  have hsized := P2PConnector.sized_of_receivedMessage h
  have hsame : block' = block := by
    induction hroute with
    | refl => rfl
    | tail _ hlast ih =>
      rw [ih] at hlast
      exact hlast.eq htyped hsized
  subst hsame
  refine ⟨rfl, fun other sender again hregistered => ?_, fun huid folder => ?_⟩
  · exact P2PConnector.receivedMessage_blockMessage hregistered block' again hsized
  · rw [folder.getBlockFromDisk_writeBlockToDisk htyped hsized huid, if_pos rfl]

namespace Sample

/-- A connector with all its callbacks. -/
def listening : P2PConnector :=
  { callbackBaseline := true, callbackCollection := true, callbackActivePeers := true }

theorem registered_listening : listening.Registered := ⟨rfl, rfl, rfl⟩

/-- A collection with one transaction. -/
def passedBlock : CollectionBlock :=
  { header := { genericHeader := { blockType := .CollectionBlock }, blockUid := 5 }
    transactions := OrdMap.empty.insert 7
      { fraction := 30, preOwner := ⟨[65]⟩, postOwner := ⟨[66]⟩, signature := [1, 2] } }

theorem sized_passedBlock : (Block.collection passedBlock).Sized :=
  CollectionBlock.sized_of_length (by decide +kernel)

theorem received_passedBlock :
    listening.receivedMessage [1] (P2PConnector.blockMessage false (.collection passedBlock)) =
      some (P2PConnector.callback [1] false (.collection passedBlock)) :=
  P2PConnector.receivedMessage_blockMessage registered_listening _ false sized_passedBlock

end Sample

/-- A collection that was received, moved to a folder and read from there. -/
theorem passedBlock_relayed_unchanged :
    Relation.ReflTransGen Carried (.collection Sample.passedBlock)
        (.collection Sample.passedBlock) ∧
      (∀ (other : P2PConnector) (sender : PeerId) (again : Bool), other.Registered →
        other.receivedMessage sender
            (P2PConnector.blockMessage again (.collection Sample.passedBlock)) =
          some (P2PConnector.callback sender again (.collection Sample.passedBlock))) ∧
      ∀ folder : BlockFolder,
        (folder.writeBlockToDisk (.collection Sample.passedBlock)).getBlockFromDisk 5 =
          some (.collection Sample.passedBlock) := by
  have hmessage : Carried (.collection Sample.passedBlock) (.collection Sample.passedBlock) :=
    .message Sample.registered_listening Sample.received_passedBlock
  have htyped : (Block.collection Sample.passedBlock).WellTyped := rfl
  have hread := BlockFolder.getBlockFromDisk_writeBlockToDisk ∅ htyped Sample.sized_passedBlock
    (by decide : (5 : BlockUid) ≠ 0)
  rw [if_pos (by rfl)] at hread
  have hroute := (Relation.ReflTransGen.single hmessage).tail (.file hread)
  have hpassed := relayed_unchanged Sample.received_passedBlock htyped hroute
  exact ⟨hroute, hpassed.2.1, hpassed.2.2 (by decide)⟩

end SwabianCoin
