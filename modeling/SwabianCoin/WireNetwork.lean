import SwabianCoin.Agreement
import SwabianCoin.PeerConnections

/-!
# The network, byte for byte

Nodes with their connectors. What a node propagates becomes bytes in the buffers of its peers;
bytes that have left a buffer are read packet by packet at the other end, and what the archive
makes of a packet is what the node there gets to see. Meanwhile peers come and go, blocks are asked
for and answered, baselines are transferred, and bytes of all kinds come from outside.

`Network` knows nothing of this: there messages are blocks. `refines` says that nothing else can
happen here than what can happen there, so what holds of every run of `Network` holds of nodes that
talk in bytes (`agreement_over_bytes`).

The object for a node stands at the place of the node's id. What is on its way when a connection
ends is lost.
-/

namespace SwabianCoin

open Machine Reader

variable {ι : Type}

/-! ## Nodes and connections -/

/-- The nodes and their connections. -/
structure WireNetwork (ι : Type) where
  nodes : ι → BlockchainManager
  connections : ι → PeerConnections

inductive WireEvent (ι : Type) where
  /-- Something happens to a node. -/
  | act (i : ι) (event : ManagerEvent)
  /-- Something happens to its connections. -/
  | connect (i : ι) (event : PeerEvent)
  /-- A packet of one node arrives at another as a whole. A connection keeps the order of its
  packets; here any of them may be next. -/
  | receive (i j : ι) (number : Nat) (now : BlockchainTime)
  /-- A packet arrives from outside. -/
  | outside (j : ι) (peer : PeerId) (message : Bytes) (now : BlockchainTime)

/-- What happens to connections besides sending the blocks of the node and receiving. -/
def PeerEvent.isLocal : PeerEvent → Bool
  | .propagateBlock _ => false
  | .receivedMessage _ _ => false
  | .blockchain _ => false
  | _ => true

namespace WireNetwork

section Step

variable [DecidableEq ι] (crypto : CryptoHelper) (peerId : ι → PeerId) (w : WireNetwork ι)

/-- An event at a node. The connector has the same chain, and sends what the node propagates. -/
def act (i : ι) (event : ManagerEvent) : WireNetwork ι :=
  let result := (w.nodes i).act crypto event
  let blocks := result.2.filterMap Effect.propagated
  { nodes := Function.update w.nodes i result.1
    connections := Function.update w.connections i
      (Run.exec PeerConnections.step (w.connections i)
        (.blockchain result.1.blockchain ::
          blocks.map fun block => .propagateBlock (.collection block))) }

/-- An event at the connections of a node. -/
def connect (i : ι) (event : PeerEvent) : WireNetwork ι :=
  { w with connections := Function.update w.connections i ((w.connections i).step event) }

/-- The collection that a packet of a peer brings to the node, and whether it is an answer. -/
def brings (j : ι) (peer : PeerId) (message : Bytes) : Option (CollectionBlock × Bool) :=
  if (w.connections j).peers.contains peer then
    match (w.connections j).connector.receivedMessage peer message with
    | some (.callbackCollection _ block reply) => some (block, reply)
    | _ => none
  else none

/-- A packet of a peer. The connector handles it, and a collection goes to the node. -/
def arrive (j : ι) (peer : PeerId) (message : Bytes) (now : BlockchainTime) : WireNetwork ι :=
  let arrived := w.connect j (.receivedMessage peer message)
  match w.brings j peer message with
  | none => arrived
  | some (block, reply) => arrived.act crypto j (.collectionBlockReceived peer block reply now)

/-- The packet with a number, if it has left the buffer of the first node as a whole. -/
def packet (i j : ι) (number : Nat) : Option Bytes :=
  ((w.connections i).peers.find? (peerId j)).bind fun plugin =>
    (receivePackets plugin.wire.length plugin.wire)[number]?

def step : WireEvent ι → WireNetwork ι
  | .act i event => w.act crypto i event
  | .connect i event => w.connect i event
  | .receive i j number now =>
    match w.packet peerId i j number with
    | none => w
    | some message => w.arrive crypto j (peerId i) message now
  | .outside j peer message now => w.arrive crypto j peer message now

end Step

/-! ## Messages of a node -/

/-- The message tells of no block that is new: an answer, or another kind of message. -/
def NoNews (bytes : Bytes) : Prop :=
  (∃ block, bytes = collectionMessage block true) ∨
    ∃ type contents, bytes = message type contents ∧ type ≠ .PropagateCollectionBlock

/-- The message comes from a node of the network: a block it has propagated, or no news. -/
def ComesFrom (s : Network ι) (i : ι) (bytes : Bytes) : Prop :=
  (∃ sent ∈ s.sent, sent.sender = i ∧ bytes = collectionMessage sent.block false) ∨ NoNews bytes

theorem noNews_answer {block : Block} {reply : Bytes} (h : P2PConnector.answer block = some reply) :
    NoNews reply := by
  cases block with
  | baseline block =>
    simp only [P2PConnector.answer] at h
    split at h
    · cases h
    · exact Or.inr ⟨_, _, (Option.some.inj h).symm, by simp⟩
  | collection block =>
    simp only [P2PConnector.answer] at h
    split at h
    · exact Or.inl ⟨block, (Option.some.inj h).symm⟩
    · cases h

/-- What a connector sends of its own accord. -/
theorem noNews_sends {c : PeerConnections} {event : PeerEvent}
    (h : event.isLocal = true ∨ ∃ peer message, event = .receivedMessage peer message)
    {send : PeerId × Sender × Bytes} (hsend : send ∈ c.sends event) : NoNews send.2.2 := by
  cases event with
  | receivedMessage peer received =>
    simp only [PeerConnections.sends] at hsend
    split_ifs at hsend
    · split at hsend
      · next target uid reply hread =>
        have hdue := (c.connector.receivedMessage_dueTo peer hread).2.2
        obtain ⟨block, -, hanswer⟩ := Option.bind_eq_some_iff.1 hdue.symm
        rw [List.mem_singleton.1 hsend]
        exact noNews_answer hanswer
      · exact absurd hsend List.not_mem_nil
    · exact absurd hsend List.not_mem_nil
  | ask call rand =>
    obtain ⟨question, -, -, -, -, -, hbytes⟩ := PeerConnections.mem_ask hsend
    rw [hbytes]
    cases question with
    | askForBlock uid => exact Or.inr ⟨_, _, rfl, by simp⟩
    | askForLastBaselineBlock => exact Or.inr ⟨_, _, rfl, by simp⟩
  | propagateActivePeersList list =>
    obtain ⟨peer, -, rfl⟩ := List.mem_map.1 hsend
    exact Or.inr ⟨_, _, rfl, by simp⟩
  | sendBaselineThread =>
    obtain ⟨peer, sender, bytes⟩ := send
    rcases (PeerConnections.sends_cases hsend).2 with ⟨hsender, -⟩ | ⟨-, -, -, hroot⟩
    · simp only [PeerConnections.sends] at hsend
      split at hsend
      · split_ifs at hsend
        · cases List.mem_singleton.1 hsend
          exact absurd rfl hsender
        · exact absurd hsend List.not_mem_nil
      · exact absurd hsend List.not_mem_nil
    · obtain ⟨root, rfl⟩ := PeerConnections.sendBaselineThread_message hroot
      exact Or.inr ⟨_, _, rfl, by simp⟩
  | propagateBlock block => simp [PeerEvent.isLocal] at h
  | _ => exact absurd hsend List.not_mem_nil

/-- **What a message of a node brings.** -/
theorem ComesFrom.brings {s : Network ι} {i : ι} {bytes : Bytes} (h : ComesFrom s i bytes)
    (hshort : bytes.length + 2 < 2 ^ 31) {w : WireNetwork ι} {j : ι}
    (hregistered : (w.connections j).connector.callbackCollection = true) {peer : PeerId}
    {block : CollectionBlock} {reply : Bool}
    (hbrings : w.brings j peer bytes = some (block, reply)) :
    reply = true ∨ ∃ sent ∈ s.sent, sent.sender = i ∧ sent.block = block := by
  obtain ⟨sender, hread⟩ : ∃ sender, (w.connections j).connector.receivedMessage peer bytes =
      some (.callbackCollection sender block reply) := by
    unfold WireNetwork.brings at hbrings
    split_ifs at hbrings
    split at hbrings
    · next sender block' reply' hread =>
      cases hbrings
      exact ⟨sender, hread⟩
    · cases hbrings
  have hcollection : ∀ sent again, bytes = collectionMessage sent again →
      block = sent ∧ reply = again := by
    rintro sent again rfl
    have hlength : sent.ser.length < 2 ^ 64 := by
      simp only [collectionMessage, message, archive, List.length_cons, List.length_append]
        at hshort
      omega
    have hsized := CollectionBlock.sized_of_length hlength
    have hback : (w.connections j).connector.receivedMessage peer (collectionMessage sent again) =
        some (.callbackCollection peer sent again) :=
      P2PConnector.receivedMessage_message
        (P2PConnector.reads_collectionContents hregistered hsized again)
    rw [hread] at hback
    cases hback
    exact ⟨rfl, rfl⟩
  rcases h with ⟨sent, hsent, hsender, hbytes⟩ | ⟨sent, hbytes⟩ | ⟨type, contents, rfl, htype⟩
  · obtain ⟨hblock, -⟩ := hcollection sent.block false hbytes
    exact Or.inr ⟨sent, hsent, hsender, hblock.symm⟩
  · exact Or.inl (hcollection sent true hbytes).2
  · exact absurd hread ((w.connections j).connector.receivedMessage_other peer htype contents sender
      block reply)

/-! ## What connections carry -/

/-- The connector takes collections, and everything that was given to its peers to send is
accounted for and allowed. -/
structure Carries (allowed : Bytes → Prop) (c : PeerConnections) : Prop where
  collection : c.connector.callbackCollection = true
  accounted : ∀ peer plugin, c.peers.find? peer = some plugin → plugin.Accounted
  given : ∀ peer plugin, c.peers.find? peer = some plugin → ∀ send ∈ plugin.given, allowed send.2

theorem given_foldl (messages : List (Sender × Bytes)) (plugin : FcoinPeerPlugin) :
    (messages.foldl (fun plugin send => plugin.sendMessage send.1 send.2) plugin).given =
      plugin.given ++ messages := by
  induction messages generalizing plugin with
  | nil => simp
  | cons send messages ih =>
    have hgiven : (plugin.sendMessage send.1 send.2).given = plugin.given ++ [send] := by
      simp only [FcoinPeerPlugin.sendMessage, FcoinPeerPlugin.sendMessageWithinSingleThread]
      split_ifs <;> rfl
    rw [List.foldl_cons, ih, hgiven, List.append_assoc, List.singleton_append]

theorem given_change {plugin plugin' : FcoinPeerPlugin}
    (h : PeerConnections.PluginChange plugin plugin') : plugin'.given = plugin.given := by
  cases h with
  | tick => rw [plugin.tick_eq]
  | _ => rfl

theorem callbackCollection_step (c : PeerConnections) (event : PeerEvent) :
    (c.step event).connector.callbackCollection = c.connector.callbackCollection := by
  have hmodify : ∀ peer f, (c.modifyPeer peer f).connector = c.connector := by
    intro peer f
    rw [PeerConnections.modifyPeer_eq]
  rw [PeerConnections.step_eq]
  cases event with
  | handshake peer id => exact congrArg _ (hmodify peer _)
  | tick peer => exact congrArg _ (hmodify peer _)
  | transmit peer count => exact congrArg _ (hmodify peer _)
  | receivedMessage peer message =>
    simp only [PeerConnections.change]
    split_ifs
    · split
      · simp only [P2PConnector.afterMessage]
        split <;> rfl
      · rfl
    · rfl
  | sendBaselineThread =>
    simp only [PeerConnections.change]
    rcases PeerConnections.runThread_cases c with ⟨hrun, -⟩ | ⟨peer, -, -, hrun⟩ |
      ⟨peer, root, -, -, hrun⟩ | ⟨peer, -, -, hrun⟩ | ⟨peer, -, hrun⟩ <;> rw [hrun]
  | _ => rfl

namespace Carries

variable {allowed allowed' : Bytes → Prop} {c : PeerConnections}

theorem mono (h : Carries allowed c) (hallowed : ∀ bytes, allowed bytes → allowed' bytes) :
    Carries allowed' c :=
  ⟨h.collection, h.accounted, fun peer plugin hfind send hsend =>
    hallowed send.2 (h.given peer plugin hfind send hsend)⟩

theorem step (h : Carries allowed c) {event : PeerEvent}
    (hsends : ∀ send ∈ c.sends event, allowed send.2.2) : Carries allowed (c.step event) where
  collection := (callbackCollection_step c event).trans h.collection
  accounted := PeerConnections.accounted_step h.accounted event
  given peer plugin hfind send hsend := by
    rw [PeerConnections.find?_step] at hfind
    obtain ⟨changed, hchanged, rfl⟩ := Option.map_eq_some_iff.1 hfind
    rw [given_foldl] at hsend
    rcases List.mem_append.1 hsend with hbefore | hnow
    · rcases PeerConnections.find?_change hchanged with rfl | ⟨before, hfind, hchange⟩
      · exact absurd hbefore List.not_mem_nil
      · rw [given_change hchange] at hbefore
        exact h.given peer before hfind send hbefore
    · exact hsends (peer, send) (PeerConnections.mem_sendsTo.1 hnow)

theorem propagate (h : Carries allowed c) {blocks : List CollectionBlock}
    (hblocks : ∀ block ∈ blocks, allowed (collectionMessage block false)) :
    Carries allowed (Run.exec PeerConnections.step c
      (blocks.map fun block => .propagateBlock (.collection block))) := by
  induction blocks generalizing c with
  | nil => exact h
  | cons block blocks ih =>
    obtain ⟨hfirst, hrest⟩ := List.forall_mem_cons.1 hblocks
    refine ih (h.step fun send hsend => ?_) hrest
    obtain ⟨peer, -, rfl⟩ := List.mem_map.1 hsend
    exact hfirst

/-- **A packet is one of the messages that were given to be sent.** -/
theorem packet (h : Carries allowed c) {peer : PeerId} {plugin : FcoinPeerPlugin}
    (hfind : c.peers.find? peer = some plugin)
    (hshort : ∀ send ∈ plugin.given, send.2.length + 2 < 2 ^ 31) {number : Nat} {bytes : Bytes}
    (hpacket : (receivePackets plugin.wire.length plugin.wire)[number]? = some bytes) :
    allowed bytes ∧ bytes.length + 2 < 2 ^ 31 := by
  have haccounted := h.accounted peer plugin hfind
  have hbegin := receivePackets_prefix plugin.wire.length (haccounted.short_handed hshort)
    haccounted.packets_map
  obtain ⟨send, hhanded, rfl⟩ :=
    List.mem_map.1 (hbegin.mem (List.mem_of_getElem? hpacket))
  have hgiven := haccounted.given_of_handed hhanded
  exact ⟨h.given peer plugin hfind send hgiven, hshort send hgiven⟩

end Carries

/-! ## Refinement -/

/-- The nodes are the same, and the connections of a node carry its messages. -/
structure Matches (w : WireNetwork ι) (s : Network ι) : Prop where
  nodes : w.nodes = s.nodes
  connections : ∀ i, Carries (ComesFrom s i) (w.connections i)

/-- What is assumed of an event. Connections send no blocks that the node has not propagated, and
messages are not too long for the size of a packet. -/
def Regular (peerId : ι → PeerId) (w : WireNetwork ι) : WireEvent ι → Prop
  | .connect _ event => event.isLocal = true
  | .receive i j _ _ => ∀ plugin ∈ (w.connections i).peers.find? (peerId j),
      ∀ send ∈ plugin.given, send.2.length + 2 < 2 ^ 31
  | _ => True

instance (peerId : ι → PeerId) (w : WireNetwork ι) : ∀ event, Decidable (w.Regular peerId event)
  | .act _ _ => inferInstanceAs (Decidable True)
  | .connect _ event => inferInstanceAs (Decidable (event.isLocal = true))
  | .receive i j _ _ =>
    inferInstanceAs (Decidable (∀ plugin ∈ (w.connections i).peers.find? (peerId j), _))
  | .outside _ _ _ _ => inferInstanceAs (Decidable True)

/-- The collection that a packet on its way brings. -/
def carried (peerId : ι → PeerId) (w : WireNetwork ι) (i j : ι) (number : Nat) :
    Option (CollectionBlock × Bool) :=
  (w.packet peerId i j number).bind (w.brings j (peerId i))

/-- What an event looks like in `Network`. A packet that brings a collection is the delivery of a
message of its sender, unless it is an answer or comes from outside. -/
inductive SeenAs (peerId : ι → PeerId) (w : WireNetwork ι) (s : Network ι) :
    WireEvent ι → List (NetworkEvent ι) → Prop
  | act (i : ι) (event : ManagerEvent) : SeenAs peerId w s (.act i event) [.act i event]
  | connect (i : ι) (event : PeerEvent) : SeenAs peerId w s (.connect i event) []
  | nothing {i j : ι} {number : Nat} {now : BlockchainTime}
      (h : w.carried peerId i j number = none) : SeenAs peerId w s (.receive i j number now) []
  | answer {i j : ι} {number : Nat} {now : BlockchainTime} {block : CollectionBlock}
      (h : w.carried peerId i j number = some (block, true)) :
      SeenAs peerId w s (.receive i j number now)
        [.act j (.collectionBlockReceived (peerId i) block true now)]
  | deliver {i j : ι} {number place : Nat} {now : BlockchainTime} {sent : Message ι}
      (hplace : s.sent[place]? = some sent) (hsender : sent.sender = i)
      (h : w.carried peerId i j number = some (sent.block, false)) :
      SeenAs peerId w s (.receive i j number now) [.deliver j place now]
  | ignored {j : ι} {peer : PeerId} {message : Bytes} {now : BlockchainTime}
      (h : w.brings j peer message = none) : SeenAs peerId w s (.outside j peer message now) []
  | outside {j : ι} {peer : PeerId} {message : Bytes} {now : BlockchainTime}
      {block : CollectionBlock} {reply : Bool} (h : w.brings j peer message = some (block, reply)) :
      SeenAs peerId w s (.outside j peer message now)
        [.act j (.collectionBlockReceived peer block reply now)]

theorem ComesFrom.mono {s s' : Network ι} (hsent : ∀ sent ∈ s.sent, sent ∈ s'.sent) {i : ι}
    {bytes : Bytes} (h : ComesFrom s i bytes) : ComesFrom s' i bytes :=
  h.imp_left fun ⟨sent, hmem, hsender, hbytes⟩ => ⟨sent, hsent sent hmem, hsender, hbytes⟩

section Refinement

variable {crypto : CryptoHelper} {peerId : ι → PeerId} {w : WireNetwork ι} {s : Network ι}

/-- **There is a way to see an event.** -/
theorem Matches.exists_seenAs (h : Matches w s) {event : WireEvent ι}
    (hregular : w.Regular peerId event) : ∃ events, SeenAs peerId w s event events := by
  cases event with
  | act i event => exact ⟨_, .act i event⟩
  | connect i event => exact ⟨_, .connect i event⟩
  | receive i j number now =>
    rcases hcarried : w.carried peerId i j number with - | ⟨block, - | -⟩
    · exact ⟨_, .nothing hcarried⟩
    · -- What is no answer has been propagated.
      obtain ⟨message, hpacket, hbrings⟩ := Option.bind_eq_some_iff.1 hcarried
      obtain ⟨plugin, hfind, hmessage⟩ := Option.bind_eq_some_iff.1 hpacket
      obtain ⟨hfrom, hshort⟩ := (h.connections i).packet hfind (hregular plugin hfind) hmessage
      obtain ⟨sent, hmem, hsender, rfl⟩ :=
        (hfrom.brings hshort (h.connections j).collection hbrings).resolve_left (by simp)
      obtain ⟨place, hplace⟩ := List.mem_iff_getElem?.1 hmem
      exact ⟨_, .deliver hplace hsender hcarried⟩
    · exact ⟨_, .answer hcarried⟩
  | outside j peer message now =>
    rcases hbrings : w.brings j peer message with - | ⟨block, reply⟩
    · exact ⟨_, .ignored hbrings⟩
    · exact ⟨_, .outside hbrings⟩

/-- A packet with a collection that is one of the messages of its sender. -/
theorem seenAs_deliver {s : Network ι} {i j : ι} {number place : Nat} {now : BlockchainTime}
    (h : (s.sent[place]?).map (fun sent => (sent.sender, some (sent.block, false))) =
      some (i, w.carried peerId i j number)) :
    SeenAs peerId w s (.receive i j number now) [.deliver j place now] := by
  obtain ⟨sent, hplace, heq⟩ := Option.map_eq_some_iff.1 h
  obtain ⟨hsender, hcarried⟩ := Prod.mk.inj heq
  exact .deliver hplace hsender hcarried.symm

variable [DecidableEq ι]

theorem Matches.act (h : Matches w s) {i : ι} {event : ManagerEvent} {s' : Network ι}
    (hnodes : s'.nodes = Function.update s.nodes i ((s.nodes i).step crypto event))
    (hsent : ∀ sent ∈ s.sent, sent ∈ s'.sent)
    (hpropagated : ∀ block ∈ ((s.nodes i).effects crypto event).filterMap Effect.propagated,
      ∃ sent ∈ s'.sent, sent.sender = i ∧ sent.block = block) :
    Matches (w.act crypto i event) s' where
  nodes := by
    rw [hnodes, ← h.nodes]
    rfl
  connections j := by
    by_cases hj : j = i
    · subst hj
      simp only [WireNetwork.act, Function.update_self, Run.exec_cons]
      refine Carries.propagate (Carries.step ((h.connections j).mono fun _ => ComesFrom.mono hsent)
        fun send hsend => absurd hsend List.not_mem_nil) fun block hblock => ?_
      rw [h.nodes] at hblock
      obtain ⟨sent, hmem, hsender, rfl⟩ := hpropagated block hblock
      exact Or.inl ⟨sent, hmem, hsender, rfl⟩
    · simp only [WireNetwork.act, Function.update_of_ne hj]
      exact (h.connections j).mono fun _ => ComesFrom.mono hsent

theorem Matches.network_act (h : Matches w s) (i : ι) (event : ManagerEvent) :
    Matches (w.act crypto i event) (s.act crypto i event) := by
  refine h.act rfl (fun sent hmem => List.mem_append_left _ hmem) fun block hblock => ?_
  exact ⟨_, List.mem_append_right _ (List.mem_map_of_mem hblock), rfl, rfl⟩

theorem Matches.network_deliver (h : Matches w s) (j : ι) (sent : Message ι)
    (now : BlockchainTime) :
    Matches (w.act crypto j
        (.collectionBlockReceived (peerId sent.sender) sent.block false now))
      (s.deliver crypto peerId j sent now) := by
  refine h.act rfl (fun _ hmem => hmem) fun block hblock => ?_
  obtain ⟨effect, heffect, hpropagated⟩ := List.mem_filterMap.1 hblock
  have hnone := (s.nodes j).introduced_received crypto (peerId sent.sender) sent.block false now
    effect heffect
  rw [(Effect.of_introduced_eq_none hnone).2] at hpropagated
  cases hpropagated

theorem Matches.connect (h : Matches w s) (i : ι) {event : PeerEvent}
    (hevent : event.isLocal = true ∨ ∃ peer message, event = .receivedMessage peer message) :
    Matches (w.connect i event) s where
  nodes := h.nodes
  connections j := by
    by_cases hj : j = i
    · subst hj
      simp only [WireNetwork.connect, Function.update_self]
      exact (h.connections j).step fun send hsend => Or.inr (noNews_sends hevent hsend)
    · simp only [WireNetwork.connect, Function.update_of_ne hj]
      exact h.connections j

theorem Matches.arrive (h : Matches w s) {j : ι} {peer : PeerId} {message : Bytes}
    {now : BlockchainTime} {block : CollectionBlock} {reply : Bool}
    (hbrings : w.brings j peer message = some (block, reply)) :
    Matches (w.arrive crypto j peer message now)
      (s.act crypto j (.collectionBlockReceived peer block reply now)) := by
  rw [WireNetwork.arrive, hbrings]
  exact (h.connect j (Or.inr ⟨peer, message, rfl⟩)).network_act j _

/-- **One event.** However it is seen, the networks match. -/
theorem Matches.step (h : Matches w s) {event : WireEvent ι} (hregular : w.Regular peerId event)
    {events : List (NetworkEvent ι)} (hseen : SeenAs peerId w s event events) :
    Matches (w.step crypto peerId event) (Run.exec (Network.step crypto peerId) s events) := by
  cases hseen with
  | act i event => exact h.network_act i event
  | connect i event => exact h.connect i (Or.inl hregular)
  | @nothing i j number now hnone =>
    simp only [WireNetwork.step]
    split
    · exact h
    · next message hpacket =>
      rw [carried, hpacket] at hnone
      rw [WireNetwork.arrive, show w.brings j (peerId i) message = none from hnone]
      exact h.connect j (Or.inr ⟨peerId i, message, rfl⟩)
  | answer hcarried =>
    obtain ⟨message, hpacket, hbrings⟩ := Option.bind_eq_some_iff.1 hcarried
    simp only [WireNetwork.step, hpacket]
    exact h.arrive hbrings
  | @deliver i j number place now sent hplace hsender hcarried =>
    obtain ⟨message, hpacket, hbrings⟩ := Option.bind_eq_some_iff.1 hcarried
    simp only [WireNetwork.step, hpacket, Run.exec_cons, Run.exec_nil, Network.step, hplace]
    rw [WireNetwork.arrive, hbrings, ← hsender]
    exact (h.connect j (Or.inr ⟨peerId sent.sender, message, rfl⟩)).network_deliver j sent now
  | @ignored j peer message now hnone =>
    rw [WireNetwork.step, WireNetwork.arrive, hnone]
    exact h.connect j (Or.inr ⟨peer, message, rfl⟩)
  | outside hbrings => exact h.arrive hbrings

end Refinement

/-- No peers yet, and collections are passed on to the node. -/
structure Starts (w : WireNetwork ι) : Prop where
  peers : ∀ i, (w.connections i).peers = ∅
  collection : ∀ i, (w.connections i).connector.callbackCollection = true

theorem Starts.matches {w : WireNetwork ι} (h : w.Starts) : Matches w { nodes := w.nodes } where
  nodes := rfl
  connections i := by
    have hnone : ∀ peer plugin, (w.connections i).peers.find? peer ≠ some plugin := by
      intro peer plugin hfind
      rw [h.peers i, OrdMap.find?_empty] at hfind
      cases hfind
    exact ⟨h.collection i, fun peer plugin hfind => absurd hfind (hnone peer plugin),
      fun peer plugin hfind => absurd hfind (hnone peer plugin)⟩

section Runs

variable [DecidableEq ι] (crypto : CryptoHelper) (peerId : ι → PeerId) (w : WireNetwork ι)
  (events : List (WireEvent ι))

/-- The events of a run of `Network`, as they are seen with each event of a run over the wire. -/
def IsSeenAs (seen : List (List (NetworkEvent ι))) : Prop :=
  Run.Follows (step crypto peerId) (Network.step crypto peerId) (SeenAs peerId) (fun _ _ => True)
    w { nodes := w.nodes } events seen

variable {crypto peerId w events}

theorem Starts.exists_isSeenAs (h : w.Starts)
    (hregular : Run.AllSteps (step crypto peerId) (Regular peerId) w events) :
    ∃ seen, w.IsSeenAs crypto peerId events seen := by
  have hexists : ∃ seen, Run.Follows (step crypto peerId) (Network.step crypto peerId)
      (SeenAs peerId) Matches w { nodes := w.nodes } events seen := by
    refine Run.Follows.of_steps (fun w s event hmatches hevent => ?_) h.matches hregular
    obtain ⟨seen, hseen⟩ := hmatches.exists_seenAs hevent
    exact ⟨seen, hseen, hmatches.step hevent hseen⟩
  exact hexists.imp fun seen hfollows => hfollows.mono fun _ _ _ => trivial

/-- However a run is seen, the networks match all along. -/
theorem Starts.follows (h : w.Starts)
    (hregular : Run.AllSteps (step crypto peerId) (Regular peerId) w events)
    {seen : List (List (NetworkEvent ι))} (hseen : w.IsSeenAs crypto peerId events seen) :
    Run.Follows (step crypto peerId) (Network.step crypto peerId) (SeenAs peerId) Matches w
      { nodes := w.nodes } events seen :=
  Run.Follows.keeps (fun _ _ _ _ hmatches hevent hseen => hmatches.step hevent hseen)
    h.matches hregular hseen

end Runs

end WireNetwork

/-! ## Continued chains -/

/-- One chain is the other one with some more blocks. -/
def Blockchain.Continues (crypto : CryptoHelper) (bc bc' : Blockchain) : Prop :=
  ∃ blocks : List CollectionBlock, SameChain (blocks.foldl (Blockchain.extend crypto) bc) bc'

theorem SameChain.foldl_extend {crypto : CryptoHelper} {bc bc' : Blockchain} (h : SameChain bc bc')
    (blocks : List CollectionBlock) :
    SameChain (blocks.foldl (Blockchain.extend crypto) bc)
      (blocks.foldl (Blockchain.extend crypto) bc') := by
  induction blocks generalizing bc bc' with
  | nil => exact h
  | cons block blocks ih => exact ih (h.extend block)

namespace Network

variable {crypto : CryptoHelper} {genesis : Blockchain} {pool : Nat → CollectionBlock}
  {s : Network ι} {i j : ι}

theorem Inv.continues_of_le (h : s.Inv crypto genesis pool) (hle : s.round i ≤ s.round j) :
    (s.nodes i).blockchain.Continues crypto (s.nodes j).blockchain := by
  refine ⟨(s.added j).drop (s.round i), ?_⟩
  have hi := (h.node i).chain
  have hj := (h.node j).chain
  rw [h.chain_eq (le_refl _) hle] at hi
  have hwhole : s.chain crypto genesis j (s.round j) =
      ((s.added j).drop (s.round i)).foldl (Blockchain.extend crypto)
        (s.chain crypto genesis j (s.round i)) := by
    rw [chain, chain, ← List.foldl_append, List.take_append_drop, round, List.take_length]
  rw [hwhole] at hj
  exact (hi.symm.foldl_extend _).trans hj

theorem Inv.continues (h : s.Inv crypto genesis pool) (i j : ι) :
    (s.nodes i).blockchain.Continues crypto (s.nodes j).blockchain ∨
      (s.nodes j).blockchain.Continues crypto (s.nodes i).blockchain :=
  (Nat.le_total (s.round i) (s.round j)).imp h.continues_of_le h.continues_of_le

end Network

/-! ## Results -/

namespace Sample

/-- The two nodes of `pair` with their connectors. -/
def wiredPair : WireNetwork (Fin 2) :=
  { nodes := pair
    connections := fun i => { connector := { listening with blockchain := (pair i).blockchain } } }

/-- The two nodes, by name. -/
def first : Fin 2 := ⟨0, Nat.zero_lt_two⟩

def second : Fin 2 := ⟨1, Nat.one_lt_two⟩

/-- The nodes connect, and one round goes over the wire. -/
def wiredRound : List (WireEvent (Fin 2)) :=
  [.connect first (.registerPeer [2]), .connect second (.registerPeer [1]),
    .act first (.advance 0), .act second (.advance 0), .connect first (.tick [2]),
    .connect second (.tick [1]), .connect first (.transmit [2] 100),
    .connect second (.transmit [1] 200), .connect first (.transmit [2] 100),
    .receive first second 0 0, .receive second first 0 0, .act first (.advance 0),
    .act second (.advance 0)]

/-- The same round without the wire. -/
def seenRound : List (List (NetworkEvent (Fin 2))) :=
  [[], [], [.act first (.advance 0)], [.act second (.advance 0)], [], [], [], [], [],
    [.deliver second 0 0], [.deliver first 1 0], [.act first (.advance 0)],
    [.act second (.advance 0)]]

theorem starts_wiredPair : wiredPair.Starts :=
  ⟨fun _ => rfl, fun _ => rfl⟩

theorem regular_wiredRound :
    Run.AllSteps (WireNetwork.step .sample pairIds) (WireNetwork.Regular pairIds) wiredPair
      wiredRound := by
  decide +kernel

theorem isSeenAs_seenRound : wiredPair.IsSeenAs .sample pairIds wiredRound seenRound := by
  refine ⟨trivial, .connect _ _, trivial, .connect _ _, trivial, .act _ _, trivial, .act _ _,
    trivial, .connect _ _, trivial, .connect _ _, trivial, .connect _ _, trivial, .connect _ _,
    trivial, .connect _ _, trivial, ?_, trivial, ?_, trivial, .act _ _, trivial, .act _ _, trivial⟩
  · exact WireNetwork.seenAs_deliver (by decide +kernel)
  · exact WireNetwork.seenAs_deliver (by decide +kernel)

theorem fair_seenRound : Run.AllSteps (Network.step .sample pairIds) (Network.Fair pairPool)
    { nodes := wiredPair.nodes } seenRound.flatten := by
  decide +kernel

end Sample

namespace WireNetwork

variable [DecidableEq ι]

/-- **The network of bytes refines the network of messages.** Every run is seen as a run of
`Network`, event by event, and however it is seen, all nodes are in the same states at any time. -/
theorem refines (crypto : CryptoHelper) (peerId : ι → PeerId) (w : WireNetwork ι)
    (events : List (WireEvent ι)) (hstarts : w.Starts)
    (hregular : Run.AllSteps (step crypto peerId) (Regular peerId) w events) :
    (∃ seen, w.IsSeenAs crypto peerId events seen) ∧
    ∀ seen, w.IsSeenAs crypto peerId events seen →
      Run.Follows (step crypto peerId) (Network.step crypto peerId) (SeenAs peerId)
        (fun w s => w.nodes = s.nodes) w { nodes := w.nodes } events seen :=
  ⟨hstarts.exists_isSeenAs hregular, fun _ hseen =>
    (hstarts.follows hregular hseen).mono fun _ _ h => h.nodes⟩

/-- Both nodes have added the block that they have negotiated over the wire. -/
theorem wiredRound_refines :
    (∀ i, ((Run.exec (step .sample Sample.pairIds) Sample.wiredPair
      Sample.wiredRound).nodes i).blockchain.getNewestBlockId = 3) ∧
    Run.Follows (step .sample Sample.pairIds) (Network.step .sample Sample.pairIds)
      (SeenAs Sample.pairIds) (fun w s => w.nodes = s.nodes) Sample.wiredPair
      { nodes := Sample.wiredPair.nodes } Sample.wiredRound Sample.seenRound :=
  ⟨by decide +kernel, (refines .sample Sample.pairIds Sample.wiredPair Sample.wiredRound
    Sample.starts_wiredPair Sample.regular_wiredRound).2 Sample.seenRound
    Sample.isSeenAs_seenRound⟩

/-- **Agreement over bytes.** If a run over the wire is seen as a fair one, the chains of any two
nodes are one chain with more or less blocks, at any time. -/
theorem agreement_over_bytes (crypto : CryptoHelper) (genesis : Blockchain)
    (pool : Nat → CollectionBlock) (peerId : ι → PeerId) (w : WireNetwork ι)
    (events : List (WireEvent ι)) (seen : List (List (NetworkEvent ι))) (hstarts : w.Starts)
    (hregular : Run.AllSteps (step crypto peerId) (Regular peerId) w events)
    (hseen : w.IsSeenAs crypto peerId events seen)
    (hnodes : Network.Starts crypto genesis w.nodes)
    (hfair : Run.AllSteps (Network.step crypto peerId) (Network.Fair pool) { nodes := w.nodes }
      seen.flatten) :
    Run.AllStates (step crypto peerId)
      (fun w => ∀ i j,
        (w.nodes i).blockchain.Continues crypto (w.nodes j).blockchain ∨
          (w.nodes j).blockchain.Continues crypto (w.nodes i).blockchain) w events := by
  have hfollows := hstarts.follows hregular hseen
  refine hfollows.allStates (hnodes.inv_run hfair) fun w s hmatches hinv i j => ?_
  rw [hmatches.nodes]
  exact hinv.continues i j

theorem wiredRound_agreement_over_bytes :
    Run.AllStates (step .sample Sample.pairIds)
      (fun w => ∀ i j,
        (w.nodes i).blockchain.Continues .sample (w.nodes j).blockchain ∨
          (w.nodes j).blockchain.Continues .sample (w.nodes i).blockchain)
      Sample.wiredPair Sample.wiredRound :=
  agreement_over_bytes .sample Sample.minedChain Sample.pairPool Sample.pairIds Sample.wiredPair
    Sample.wiredRound Sample.seenRound Sample.starts_wiredPair Sample.regular_wiredRound
    Sample.isSeenAs_seenRound Sample.starts_pair Sample.fair_seenRound

end WireNetwork

end SwabianCoin
