import SwabianCoin.RoundTrip

/-!
# Truncated messages

A message that is cut off anywhere is dropped. Every reader of the format takes its bytes from the
front and does not look further (`Extends`), along the same code as in `Serialization`. So a part of
a message that is read would leave out what is missing, but the reader of the whole message has
used up all of it.
-/

namespace SwabianCoin

open Reader

/-! ## Readers -/

section Load

variable (convert : Bool)

theorem extends_loadNumber (width : Nat) : Extends (loadNumber convert width) :=
  (extends_take width).map _

theorem extends_loadUInt64 : Extends (loadUInt64 convert) := (extends_loadNumber convert 8).map _

theorem extends_loadInt32 : Extends (loadInt32 convert) := (extends_loadNumber convert 4).map _

theorem extends_loadSize : Extends (loadSize convert) := (extends_loadUInt64 convert).map _

theorem extends_loadHash : Extends (loadHash convert) :=
  ((extends_loadUInt64 convert).times 4).map _

theorem extends_loadString : Extends (loadString convert) :=
  (extends_loadSize convert).bind extends_take

theorem extends_loadBool : Extends loadBool := extends_byte.map _

theorem extends_loadList {α : Type} {load : Reader α} (h : Extends load) :
    Extends (loadList convert load) :=
  (extends_loadSize convert).bind h.times

theorem extends_loadMap {α β : Type} [LinearOrder α] {loadKey : Reader α} {loadValue : Reader β}
    (hkey : Extends loadKey) (hvalue : Extends loadValue) :
    Extends (loadMap convert loadKey loadValue) :=
  (extends_loadList convert (hkey.bind fun _ => hvalue.map _)).map _

theorem PublicKeyPEM.extends_load : Extends (PublicKeyPEM.load convert) :=
  (extends_loadString convert).map _

theorem GenericHeader.extends_load : Extends (GenericHeader.load convert) :=
  (extends_loadHash convert).bind fun _ => (extends_loadHash convert).bind fun _ =>
    extends_byte.map _

theorem BlockHeader.extends_load : Extends (BlockHeader.load convert) :=
  (GenericHeader.extends_load convert).bind fun _ => (extends_loadUInt64 convert).map _

theorem SubBlockHeader.extends_load : Extends (SubBlockHeader.load convert) :=
  (GenericHeader.extends_load convert).map _

theorem TransactionSubBlock.extends_load : Extends (TransactionSubBlock.load convert) :=
  (SubBlockHeader.extends_load convert).bind fun _ => (extends_loadUInt64 convert).bind fun _ =>
    (PublicKeyPEM.extends_load convert).bind fun _ =>
      (PublicKeyPEM.extends_load convert).bind fun _ => (extends_loadString convert).map _

theorem CreationSubBlock.extends_load : Extends (CreationSubBlock.load convert) :=
  (SubBlockHeader.extends_load convert).bind fun _ => (extends_loadString convert).bind fun _ =>
    (PublicKeyPEM.extends_load convert).bind fun _ => (extends_loadString convert).map _

theorem MiningState.extends_load : Extends (MiningState.load convert) :=
  (extends_loadUInt64 convert).bind fun _ => (extends_loadHash convert).bind fun _ =>
    (extends_loadHash convert).bind fun _ => (extends_loadInt32 convert).map _

theorem BaselineBlock.extends_load : Extends (BaselineBlock.load convert) :=
  (BlockHeader.extends_load convert).bind fun _ => (MiningState.extends_load convert).bind fun _ =>
    (extends_loadList convert (extends_loadList convert (extends_loadHash convert))).bind fun _ =>
      (extends_loadMap convert (PublicKeyPEM.extends_load convert)
        (extends_loadUInt64 convert)).map _

theorem CollectionBlock.extends_load : Extends (CollectionBlock.load convert) :=
  (BlockHeader.extends_load convert).bind fun _ =>
    (extends_loadMap convert (extends_loadHash convert)
      (TransactionSubBlock.extends_load convert)).bind fun _ =>
    (extends_loadMap convert (extends_loadHash convert)
      (CreationSubBlock.extends_load convert)).map _

end Load

theorem ActivePeersList.extends_load : Extends ActivePeersList.load := by
  intro bytes list rest ext h
  simp only [ActivePeersList.load] at h ⊢
  split_ifs at h with hle
  cases h
  have hlonger : 8192 ≤ (bytes ++ ext).length := by
    rw [List.length_append]
    exact Nat.le_add_right_of_le hle
  rw [dif_pos hlonger]
  simp only [List.take_append_of_le_length hle, List.drop_append_of_le_length hle]

theorem extends_unarchive {α : Type} {load : Bool → Reader α}
    (h : ∀ convert, Extends (load convert)) : Extends (unarchive load) :=
  extends_byte.bind fun _ => h _

/-! ## Messages -/

namespace P2PConnector

variable {connector : P2PConnector} {peer : PeerId}

theorem extends_receivedContents (connector : P2PConnector) (peer : PeerId) (convert : Bool)
    (type : MessageType) : Extends (connector.receivedContents peer convert type) := by
  cases type with
  | PropagateBaselineBlock =>
    rw [receivedContents]
    split_ifs
    · exact (BaselineBlock.extends_load convert).bind fun _ => extends_loadBool.map _
    · exact Extends.pure none
  | PropagateCollectionBlock =>
    rw [receivedContents]
    split_ifs
    · exact (CollectionBlock.extends_load convert).bind fun _ => extends_loadBool.map _
    · exact Extends.pure none
  | AskForBlock =>
    rw [receivedContents]
    split_ifs
    · exact Extends.pure none
    · exact (extends_loadUInt64 convert).map _
  | AskForLastBaselineBlock => exact Extends.pure _
  | PropagateActivePeersList =>
    rw [receivedContents]
    split_ifs
    · exact ActivePeersList.extends_load.map _
    · exact Extends.pure none

theorem extends_receivedArchive (connector : P2PConnector) (peer : PeerId) (convert : Bool) :
    Extends (connector.receivedArchive peer convert) := by
  refine (extends_loadNumber convert 2).bind fun version => ?_
  split_ifs
  · exact Extends.pure _
  · refine extends_byte.bind fun code => ?_
    cases MessageType.ofByte code with
    | none => exact Extends.pure none
    | some type => exact connector.extends_receivedContents peer convert type

/-- The message leads to nothing and leaves the connector as it is. -/
structure Ignores (connector : P2PConnector) (peer : PeerId) (message : Bytes) : Prop where
  noEffect : connector.receivedMessage peer message = none
  unchanged : connector.afterMessage peer message = connector

theorem ignores_of_noEffect {part : Bytes} (h : connector.receivedMessage peer part = none) :
    connector.Ignores peer part := by
  refine ⟨h, ?_⟩
  rw [afterMessage, h]

/-- A part of a message that is used up is ignored, unless nothing is missing. -/
theorem ignores_part {type : MessageType} {contents part : Bytes} {effect : Option P2PEffect}
    (h : Reads (connector.receivedContents peer false type) contents effect)
    (hpart : part <+: message type contents) (hne : part ≠ message type contents) :
    connector.Ignores peer part := by
  obtain ⟨ext, hext⟩ := hpart
  have hread : unarchive (connector.receivedArchive peer) (part ++ ext) = some (effect, []) := by
    rw [hext, ← List.append_nil contents]
    exact unarchive_message h
  have hextends := extends_unarchive (connector.extends_receivedArchive peer)
  rcases hextends.part_cases hread with hnone | ⟨rest, -, hrest⟩
  · apply ignores_of_noEffect
    rw [receivedMessage, hnone]
  · -- nothing is missing
    have hempty : ext = [] := (List.append_eq_nil_iff.1 hrest.symm).2
    rw [hempty, List.append_nil] at hext
    exact absurd hext hne

/-- Where no callback is registered, the contents are not even read. -/
theorem ignores_part_of_unregistered {type : MessageType} {contents part : Bytes}
    (h : connector.receivedContents peer false type = Pure.pure none)
    (hpart : part <+: message type contents) : connector.Ignores peer part := by
  obtain ⟨ext, hext⟩ := hpart
  have hread : unarchive (connector.receivedArchive peer) (part ++ ext) =
      some (none, contents) := by
    rw [hext, ← List.nil_append contents]
    apply unarchive_message
    rw [h]
    exact Reads.pure none
  have hextends := extends_unarchive (connector.extends_receivedArchive peer)
  apply ignores_of_noEffect
  rcases hextends.part_cases hread with hnone | ⟨rest, hsome, -⟩
  · rw [receivedMessage, hnone]
  · rw [receivedMessage, hsome]

theorem ignores_part_blockMessage {block : Block} (hsized : block.Sized) (reply : Bool)
    {part : Bytes} (hpart : part <+: blockMessage reply block)
    (hne : part ≠ blockMessage reply block) : connector.Ignores peer part := by
  cases block with
  | baseline block =>
    by_cases hregistered : connector.callbackBaseline
    · exact ignores_part (reads_baselineContents hregistered hsized reply) hpart hne
    · refine ignores_part_of_unregistered ?_ hpart
      rw [receivedContents, if_neg hregistered]
  | collection block =>
    by_cases hregistered : connector.callbackCollection
    · exact ignores_part (reads_collectionContents hregistered hsized reply) hpart hne
    · refine ignores_part_of_unregistered ?_ hpart
      rw [receivedContents, if_neg hregistered]

theorem ignores_part_propagateActivePeersList {list : ActivePeersList} {part : Bytes}
    (hpart : part <+: propagateActivePeersList list) (hne : part ≠ propagateActivePeersList list) :
    connector.Ignores peer part := by
  by_cases hregistered : connector.callbackActivePeers
  · exact ignores_part (reads_activePeersContents hregistered list) hpart hne
  · refine ignores_part_of_unregistered ?_ hpart
    rw [receivedContents, if_neg hregistered]

end P2PConnector

/-- Messages that are cut off are ignored. -/
structure IgnoresTruncated (connector : P2PConnector) (peer : PeerId) : Prop where
  blocks : ∀ block : Block, block.Sized → ∀ part, part <+: P2PConnector.propagateBlock block →
    part ≠ P2PConnector.propagateBlock block → connector.Ignores peer part
  activePeers : ∀ list part, part <+: P2PConnector.propagateActivePeersList list →
    part ≠ P2PConnector.propagateActivePeersList list → connector.Ignores peer part

/-- **A message that is cut off anywhere is ignored**, whatever is registered. -/
theorem ignoresTruncated (connector : P2PConnector) (peer : PeerId) :
    IgnoresTruncated connector peer where
  blocks block hsized part hpart hne := by
    have hmessage : P2PConnector.propagateBlock block = P2PConnector.blockMessage false block := by
      cases block <;> rfl
    rw [hmessage] at hpart hne
    exact P2PConnector.ignores_part_blockMessage hsized false hpart hne
  activePeers _ _ hpart hne := P2PConnector.ignores_part_propagateActivePeersList hpart hne

end SwabianCoin
