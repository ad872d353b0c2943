import SwabianCoin.BloomFilter
import SwabianCoin.RoundTrip
import SwabianCoin.Lib.Run

/-!
# Active-peer gossip

Every node has an `ActivePeersCollector`. It starts a list with the hash of its own key, sends the
list around at every collect state, and merges what it receives into its own.

In the abstract the lists are sets of hashes (`Heard`). A run of the collectors, with the messages
as they go over the wire, simulates the run on sets: a list that was built or sent anywhere is the
filter of a set of owners, however often and in whatever order the messages arrived.
-/

namespace SwabianCoin

/-! ## Collectors -/

/-- The estimate of the last round, a rounded logarithm, is left out. -/
structure ActivePeersCollector where
  ownerKeyHash : Hash
  tempActivePeersList : ActivePeersList := ⟨.empty⟩

namespace ActivePeersCollector

def blocksToCollectActivePeers : UInt64 := 30

/-- The constructor. -/
def create (crypto : CryptoHelper) (ownerKey : PublicKeyPEM) : ActivePeersCollector where
  ownerKeyHash := crypto.calcHash ownerKey.getAsShortString

variable (collector : ActivePeersCollector)

/-- `activePeersListReceivedCallback`: the list is merged into the new one. -/
def activePeersListReceivedCallback (list : ActivePeersList) : ActivePeersCollector :=
  { collector with
    tempActivePeersList :=
      ⟨collector.tempActivePeersList.activePeersBloomFilter.merge list.activePeersBloomFilter⟩ }

def restartListBuilding : ActivePeersCollector :=
  { collector with
    tempActivePeersList :=
      ⟨collector.tempActivePeersList.activePeersBloomFilter.clear.insertHash
        collector.ownerKeyHash⟩ }

/-- The message for all peers. -/
def propagate : Bytes := P2PConnector.propagateActivePeersList collector.tempActivePeersList

/-- The part of `CycleStateCollect::onEnter` before `propagate`. -/
def onEnter (newestBlockId : BlockUid) : ActivePeersCollector :=
  if newestBlockId % blocksToCollectActivePeers = 0 then collector.restartListBuilding
  else collector

/-- A message as it arrives. The constructor has registered the callback. -/
def receivedMessage (connector : P2PConnector) (peer : PeerId) (message : Bytes) :
    ActivePeersCollector :=
  match { connector with callbackActivePeers := true }.receivedMessage peer message with
  | some (.callbackActivePeers _ list) => collector.activePeersListReceivedCallback list
  | _ => collector

end ActivePeersCollector

/-! ## The network -/

/-- What the nodes do. Time and the chain decide when, and a message may arrive late, twice, or
never. -/
inductive GossipEvent (ι : Type) where
  | restartListBuilding (node : ι)
  | collect (node : ι) (newestBlockId : BlockUid)
  /-- One of the messages sent so far. -/
  | receive (node : ι) (connector : P2PConnector) (peer : PeerId) (number : Nat)

structure Gossip (ι : Type) where
  collectors : ι → ActivePeersCollector
  messages : List Bytes := []

/-- The sets of hashes that the lists and the messages stand for. -/
structure Heard (ι : Type) where
  peers : ι → Finset Hash
  sent : List (Finset Hash) := []

section Network

variable {ι : Type} [DecidableEq ι]

def Gossip.step (gossip : Gossip ι) : GossipEvent ι → Gossip ι
  | .restartListBuilding node =>
    { gossip with
      collectors := Function.update gossip.collectors node
        (gossip.collectors node).restartListBuilding }
  | .collect node newestBlockId =>
    let collector := (gossip.collectors node).onEnter newestBlockId
    { collectors := Function.update gossip.collectors node collector
      messages := gossip.messages ++ [collector.propagate] }
  | .receive node connector peer number =>
    match gossip.messages[number]? with
    | some message =>
      { gossip with
        collectors := Function.update gossip.collectors node
          ((gossip.collectors node).receivedMessage connector peer message) }
    | none => gossip

/-- Gossip on sets: start with oneself, pass on what one has, and join what arrives. -/
def Heard.step (owner : ι → Hash) (heard : Heard ι) : GossipEvent ι → Heard ι
  | .restartListBuilding node =>
    { heard with peers := Function.update heard.peers node {owner node} }
  | .collect node newestBlockId =>
    let hashes := if newestBlockId % ActivePeersCollector.blocksToCollectActivePeers = 0
      then {owner node} else heard.peers node
    { peers := Function.update heard.peers node hashes
      sent := heard.sent ++ [hashes] }
  | .receive node _ _ number =>
    match heard.sent[number]? with
    | some hashes =>
      { heard with peers := Function.update heard.peers node (heard.peers node ∪ hashes) }
    | none => heard

/-! ## Simulation -/

/-- A message carries the filter of a set of hashes. -/
def Carries (message : Bytes) (hashes : Finset Hash) : Prop :=
  ∃ list : ActivePeersList, message = P2PConnector.propagateActivePeersList list ∧
    list.activePeersBloomFilter.Represents hashes

namespace ActivePeersCollector

/-- The list of the collector is the filter of a set of hashes. -/
def Has (collector : ActivePeersCollector) (hashes : Finset Hash) : Prop :=
  collector.tempActivePeersList.activePeersBloomFilter.Represents hashes

variable {collector : ActivePeersCollector} {hashes : Finset Hash}

theorem has_restartListBuilding (collector : ActivePeersCollector) :
    collector.restartListBuilding.Has {collector.ownerKeyHash} :=
  BloomFilter.represents_clear.insertHash (by decide) (by decide) collector.ownerKeyHash

theorem Has.onEnter (h : collector.Has hashes) (newestBlockId : BlockUid) :
    (collector.onEnter newestBlockId).Has (if newestBlockId % blocksToCollectActivePeers = 0
      then {collector.ownerKeyHash} else hashes) := by
  rw [ActivePeersCollector.onEnter]
  split
  · exact collector.has_restartListBuilding
  · exact h

theorem Has.carries_propagate (h : collector.Has hashes) : Carries collector.propagate hashes :=
  ⟨_, rfl, h⟩

/-- A message with a filter arrives as it was sent, and is merged. -/
theorem Has.receivedMessage (h : collector.Has hashes) {message : Bytes} {others : Finset Hash}
    (hmessage : Carries message others) (connector : P2PConnector) (peer : PeerId) :
    (collector.receivedMessage connector peer message).Has (hashes ∪ others) := by
  obtain ⟨list, rfl, hlist⟩ := hmessage
  have hread : { connector with callbackActivePeers := true }.receivedMessage peer
      (P2PConnector.propagateActivePeersList list) = some (.callbackActivePeers peer list) :=
    P2PConnector.receivedMessage_message (P2PConnector.reads_activePeersContents rfl list)
  rw [ActivePeersCollector.receivedMessage, hread]
  exact h.merge hlist

theorem ownerKeyHash_onEnter (newestBlockId : BlockUid) :
    (collector.onEnter newestBlockId).ownerKeyHash = collector.ownerKeyHash := by
  rw [onEnter]
  split <;> rfl

theorem ownerKeyHash_receivedMessage (connector : P2PConnector) (peer : PeerId)
    (message : Bytes) :
    (collector.receivedMessage connector peer message).ownerKeyHash =
      collector.ownerKeyHash := by
  rw [receivedMessage]
  split <;> rfl

end ActivePeersCollector

/-- The collectors and messages are those for the sets. -/
structure Simulates (owner : ι → Hash) (gossip : Gossip ι) (heard : Heard ι) : Prop where
  ownerKeyHash : ∀ node, (gossip.collectors node).ownerKeyHash = owner node
  has : ∀ node, (gossip.collectors node).Has (heard.peers node)
  carries : List.Forall₂ Carries gossip.messages heard.sent

variable {owner : ι → Hash} {gossip : Gossip ι} {heard : Heard ι}

theorem Simulates.update (h : Simulates owner gossip heard) {node : ι}
    {collector : ActivePeersCollector} {hashes : Finset Hash}
    (howner : collector.ownerKeyHash = owner node) (hhas : collector.Has hashes)
    {messages : List Bytes} {sent : List (Finset Hash)}
    (hsent : List.Forall₂ Carries messages sent) :
    Simulates owner ⟨Function.update gossip.collectors node collector, messages⟩
      ⟨Function.update heard.peers node hashes, sent⟩ where
  ownerKeyHash other := by
    dsimp only
    rcases eq_or_ne other node with rfl | hne
    · rwa [Function.update_self]
    · rw [Function.update_of_ne hne]
      exact h.ownerKeyHash other
  has other := by
    dsimp only
    rcases eq_or_ne other node with rfl | hne
    · rwa [Function.update_self, Function.update_self]
    · rw [Function.update_of_ne hne, Function.update_of_ne hne]
      exact h.has other
  carries := hsent

theorem Simulates.step (h : Simulates owner gossip heard) (event : GossipEvent ι) :
    Simulates owner (gossip.step event) (heard.step owner event) := by
  cases event with
  | restartListBuilding node =>
    have hrestart := (gossip.collectors node).has_restartListBuilding
    rw [h.ownerKeyHash node] at hrestart
    refine h.update ?_ hrestart h.carries
    exact h.ownerKeyHash node
  | collect node newestBlockId =>
    have henter := (h.has node).onEnter newestBlockId
    rw [h.ownerKeyHash node] at henter
    refine h.update ?_ henter ?_
    · rw [ActivePeersCollector.ownerKeyHash_onEnter, h.ownerKeyHash node]
    · exact List.rel_append h.carries (.cons henter.carries_propagate .nil)
  | receive node connector peer number =>
    have hlength := h.carries.length_eq
    rw [Gossip.step, Heard.step]
    rcases Nat.lt_or_ge number gossip.messages.length with hlt | hge
    · have hlt' : number < heard.sent.length := hlength ▸ hlt
      have hreceived := (h.has node).receivedMessage (h.carries.get hlt hlt') connector peer
      rw [List.getElem?_eq_getElem hlt, List.getElem?_eq_getElem hlt']
      refine h.update ?_ hreceived h.carries
      rw [ActivePeersCollector.ownerKeyHash_receivedMessage, h.ownerKeyHash node]
    · rw [List.getElem?_eq_none hge, List.getElem?_eq_none (hlength ▸ hge)]
      exact h

/-! ## Runs -/

variable (crypto : CryptoHelper) (keys : ι → PublicKeyPEM)

/-- Every node with an empty list, and nothing sent. -/
def Gossip.start : Gossip ι where
  collectors node := .create crypto (keys node)

def Heard.start : Heard ι where
  peers _ := ∅

/-- The hashes of the keys, under which the nodes are counted. -/
def ownerHash (node : ι) : Hash := crypto.calcHash (keys node).getAsShortString

/-- **Gossip with filters is gossip with sets.** -/
theorem simulates_run (events : List (GossipEvent ι)) :
    Simulates (ownerHash crypto keys) (Run.exec Gossip.step (.start crypto keys) events)
      (Run.exec (Heard.step (ownerHash crypto keys)) .start events) := by
  refine Run.exec_simulates (fun gossip heard event h => h.step event) ?_ events
  exact ⟨fun _ => rfl, fun _ => BloomFilter.represents_empty, .nil⟩

/-- Only owners are heard of. -/
structure Heard.Owned (owner : ι → Hash) (heard : Heard ι) : Prop where
  peers : ∀ node, ↑(heard.peers node) ⊆ Set.range owner
  sent : ∀ hashes ∈ heard.sent, ↑hashes ⊆ Set.range owner

theorem Heard.Owned.update (h : heard.Owned owner) {node : ι} {hashes : Finset Hash}
    (hhashes : ↑hashes ⊆ Set.range owner) {sent : List (Finset Hash)}
    (hsent : ∀ hashes ∈ sent, ↑hashes ⊆ Set.range owner) :
    Heard.Owned owner ⟨Function.update heard.peers node hashes, sent⟩ where
  peers other := by
    dsimp only
    rcases eq_or_ne other node with rfl | hne
    · rwa [Function.update_self]
    · rw [Function.update_of_ne hne]
      exact h.peers other
  sent := hsent

theorem Heard.Owned.step (h : heard.Owned owner) (event : GossipEvent ι) :
    (heard.step owner event).Owned owner := by
  have hself (node : ι) : ↑({owner node} : Finset Hash) ⊆ Set.range owner := by
    rw [Finset.coe_singleton, Set.singleton_subset_iff]
    exact Set.mem_range_self node
  cases event with
  | restartListBuilding node => exact h.update (hself node) h.sent
  | collect node newestBlockId =>
    rw [Heard.step]
    have hhashes : ↑(if newestBlockId % ActivePeersCollector.blocksToCollectActivePeers = 0
        then {owner node} else heard.peers node) ⊆ Set.range owner := by
      split
      · exact hself node
      · exact h.peers node
    refine h.update hhashes ?_
    intro hashes hmem
    rcases List.mem_append.1 hmem with hold | hnew
    · exact h.sent hashes hold
    · rwa [List.mem_singleton.1 hnew]
  | receive node connector peer number =>
    rw [Heard.step]
    split
    next hashes hget =>
      refine h.update ?_ h.sent
      rw [Finset.coe_union]
      exact Set.union_subset (h.peers node) (h.sent hashes (List.mem_of_getElem? hget))
    next => exact h

theorem owned_run (owner : ι → Hash) (events : List (GossipEvent ι)) :
    (Run.exec (Heard.step owner) .start events).Owned owner := by
  have hstart : Heard.start.Owned owner :=
    ⟨fun _ => by simp [Heard.start], fun _ hmem => absurd hmem List.not_mem_nil⟩
  have hall : Run.AllStates (Heard.step owner) (Heard.Owned owner) .start events :=
    .of_steps (P := fun _ _ => True) (fun _ event h _ => h.step event) hstart
      (.of_forall_mem fun _ _ _ => trivial)
  exact hall.last

/-- **Every list is the filter of a set of owners**, and finds each of them. -/
theorem exists_represents (events : List (GossipEvent ι)) (node : ι) :
    let filter := ((Run.exec Gossip.step (.start crypto keys) events).collectors
      node).tempActivePeersList.activePeersBloomFilter
    ∃ hashes : Finset Hash, ↑hashes ⊆ Set.range (ownerHash crypto keys) ∧
      filter.Represents hashes ∧ ∀ hash ∈ hashes, filter.findHash hash = true := by
  have hhas := (simulates_run crypto keys events).has node
  have howned := (owned_run (ownerHash crypto keys) events).peers node
  exact ⟨_, howned, hhas, fun hash hmem => hhas.findHash_of_mem (by decide) hmem⟩

/-- Nodes that have heard of the same peers have the same list, whatever the two runs. -/
theorem bits_eq_of_peers_eq {events events' : List (GossipEvent ι)} {node node' : ι}
    (h : (Run.exec (Heard.step (ownerHash crypto keys)) .start events).peers node =
      (Run.exec (Heard.step (ownerHash crypto keys)) .start events').peers node') :
    ((Run.exec Gossip.step (.start crypto keys) events).collectors
        node).tempActivePeersList.activePeersBloomFilter.bits =
      ((Run.exec Gossip.step (.start crypto keys) events').collectors
        node').tempActivePeersList.activePeersBloomFilter.bits := by
  have hhas := (simulates_run crypto keys events).has node
  have hhas' := (simulates_run crypto keys events').has node'
  rw [← h] at hhas'
  exact hhas.bits_eq hhas'

end Network

end SwabianCoin
