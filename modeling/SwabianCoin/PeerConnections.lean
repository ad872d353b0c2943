import SwabianCoin.Lib.Run
import SwabianCoin.PeerPlugin
import SwabianCoin.Received

/-!
# Peers and the thread that sends baselines

`P2PConnector` together with the peers that are registered with it. The network thread registers
and unregisters them and hands received messages to the connector; the cycle asks for blocks and
propagates its own. A baseline is sent by a thread of its own, one at a time, and until its peer
has taken all of it nothing else is sent to this peer.

A step is what happens under `mtx_access_peers_`. A question takes two: `getConnectedPeers` is
called before the mutex is locked, so when one of these peers is chosen it may be gone. Looking at
`peer_sending_baseline_to_` and sending is one step, since the thread sends under the mutex, too.

Peers are named by the place of their objects.
-/

namespace SwabianCoin

/-! ## The connector and its peers -/

/-- Where `send_baseline_thread_` is. -/
inductive SendBaselineThread where
  | finished
  /-- The root block has not been sent yet. -/
  | started (peer : PeerId)
  /-- In the loop that waits for the buffers of the peer. -/
  | waiting (peer : PeerId)
  /-- Before `peer_sending_baseline_to_` is reset. -/
  | ending (peer : PeerId)
  deriving DecidableEq

/-- The peer the thread has been started for. -/
def SendBaselineThread.peer : SendBaselineThread → Option PeerId
  | .finished => none
  | .started peer => some peer
  | .waiting peer => some peer
  | .ending peer => some peer

/-- The number of baselines that the thread is still going to send. -/
def SendBaselineThread.pending : SendBaselineThread → Nat
  | .started _ => 1
  | _ => 0

/-- The two questions. -/
inductive Question where
  | askForBlock (uid : BlockUid)
  | askForLastBaselineBlock

def Question.message : Question → Bytes
  | .askForBlock uid => P2PConnector.askForBlock uid
  | .askForLastBaselineBlock => P2PConnector.askForLastBaselineBlock

/-- The connector with its peers and its baseline thread. -/
structure PeerConnections where
  connector : P2PConnector := {}
  peers : OrdMap PeerId FcoinPeerPlugin := ∅
  /-- The questions that have got their `connected_peers` and wait for the mutex. -/
  asking : List (Question × List PeerId) := []
  sendBaselineThread : SendBaselineThread := .finished
  /-- For the record: how often the thread was started and how many baselines it has sent. -/
  transfers : Nat := 0
  baselinesSent : Nat := 0

/-- What can happen to the connections. -/
inductive PeerEvent where
  | registerPeer (peer : PeerId)
  | unregisterPeer (peer : PeerId)
  /-- The handshake tells the id. -/
  | handshake (peer : PeerId) (id : PeerId)
  | tick (peer : PeerId)
  | transmit (peer : PeerId) (count : Nat)
  | receivedMessage (peer : PeerId) (message : Bytes)
  /-- A call of `askForBlock` or `askForLastBaselineBlock`, up to the mutex. -/
  | getConnectedPeers (question : Question)
  /-- One of these calls goes on, with the number `rand` returns. -/
  | ask (call : Nat) (rand : Nat)
  | propagateBlock (block : Block)
  | propagateActivePeersList (list : ActivePeersList)
  /-- A step of `send_baseline_thread_`. -/
  | sendBaselineThread
  /-- The chain changes. -/
  | blockchain (blockchain : Blockchain)

namespace PeerConnections

variable (s : PeerConnections)

def getConnectedPeers : List PeerId :=
  (s.peers.entries.filter fun entry => entry.2.isConnected).map Prod.fst

/-- A question goes to one of the peers that were connected, if that is not getting a baseline. -/
def ask (call rand : Nat) : List (PeerId × Sender × Bytes) :=
  match s.asking[call]? with
  | none => []
  | some (question, connectedPeers) =>
    match connectedPeers[rand % connectedPeers.length]? with
    | none => []
    | some peer =>
      if s.connector.peerSendingBaselineTo = some peer then []
      else [(peer, .cycle, question.message)]

/-- A message for all peers but the one that is getting a baseline. -/
def propagate (message : Bytes) : List (PeerId × Sender × Bytes) :=
  (s.peers.keys.filter fun peer => s.connector.peerSendingBaselineTo ≠ some peer).map
    fun peer => (peer, .cycle, message)

/-- The calls of `sendMessage` during an event. -/
def sends : PeerEvent → List (PeerId × Sender × Bytes)
  | .receivedMessage peer message =>
    if s.peers.contains peer then
      match s.connector.receivedMessage peer message with
      | some (.answer _ _ (some reply)) => [(peer, .network, reply)]
      | _ => []
    else []
  | .ask call rand => s.ask call rand
  | .propagateBlock block => s.propagate (P2PConnector.propagateBlock block)
  | .propagateActivePeersList list => s.propagate (P2PConnector.propagateActivePeersList list)
  | .sendBaselineThread =>
    match s.sendBaselineThread, s.connector.sendBaselineThread with
    | .started peer, some message =>
      if s.peers.contains peer then [(peer, .baseline, message)] else []
    | _, _ => []
  | _ => []

/-- Change the object of a peer. -/
def modifyPeer (peer : PeerId) (f : FcoinPeerPlugin → FcoinPeerPlugin) : PeerConnections :=
  match s.peers.find? peer with
  | none => s
  | some plugin => { s with peers := s.peers.insert peer (f plugin) }

/-- A message is given to the object of a peer, if there is one. -/
def sendMessage (send : PeerId × Sender × Bytes) : PeerConnections :=
  s.modifyPeer send.1 fun plugin => plugin.sendMessage send.2.1 send.2.2

/-- A step of `send_baseline_thread_`. -/
def runThread : PeerConnections :=
  match s.sendBaselineThread with
  | .finished => s
  | .started peer =>
    match s.connector.sendBaselineThread with
    | none => { s with sendBaselineThread := .ending peer }
    | some _ =>
      { s with
        sendBaselineThread := .waiting peer
        baselinesSent := if s.peers.contains peer then s.baselinesSent + 1 else s.baselinesSent }
  | .waiting peer =>
    match s.peers.find? peer with
    | none => { s with sendBaselineThread := .ending peer }
    | some plugin =>
      if plugin.sendBufferEmpty then { s with sendBaselineThread := .ending peer } else s
  | .ending _ =>
    { s with
      sendBaselineThread := .finished
      connector := { s.connector with peerSendingBaselineTo := none } }

/-- What an event changes besides the messages it sends. -/
def change : PeerEvent → PeerConnections
  | .registerPeer peer => { s with peers := s.peers.touch peer {} }
  | .unregisterPeer peer => { s with peers := s.peers.erase peer }
  | .handshake peer id => s.modifyPeer peer fun plugin => { plugin with id }
  | .tick peer => s.modifyPeer peer FcoinPeerPlugin.tick
  | .transmit peer count => s.modifyPeer peer fun plugin => plugin.transmit count
  | .receivedMessage peer message =>
    if s.peers.contains peer then
      match s.connector.receivedMessage peer message with
      | some (.startSendBaselineThread peer) =>
        { s with
          connector := s.connector.afterMessage peer message
          sendBaselineThread := .started peer
          transfers := s.transfers + 1 }
      | _ => s
    else s
  | .getConnectedPeers question =>
    { s with asking := s.asking ++ [(question, s.getConnectedPeers)] }
  | .ask call _ => { s with asking := s.asking.eraseIdx call }
  | .sendBaselineThread => s.runThread
  | .blockchain blockchain => { s with connector := { s.connector with blockchain } }
  | _ => s

def step (event : PeerEvent) : PeerConnections :=
  (s.sends event).foldl sendMessage (s.change event)

/-! ## What a step can do -/

variable {s} {event : PeerEvent} {peer : PeerId}

theorem mem_ask {call rand : Nat} {sender : Sender} {message : Bytes}
    (h : (peer, sender, message) ∈ s.ask call rand) :
    ∃ question connectedPeers, s.asking[call]? = some (question, connectedPeers) ∧
      peer ∈ connectedPeers ∧ s.connector.peerSendingBaselineTo ≠ some peer ∧
      sender = .cycle ∧ message = question.message := by
  unfold ask at h
  split at h
  · exact absurd h List.not_mem_nil
  · next question connectedPeers hasking =>
    split at h
    · exact absurd h List.not_mem_nil
    · next other hother =>
      split_ifs at h with hbusy
      · exact absurd h List.not_mem_nil
      · cases List.mem_singleton.1 h
        exact ⟨question, connectedPeers, hasking, List.mem_of_getElem? hother, hbusy, rfl, rfl⟩

/-- **The messages of a step.** Only `send_baseline_thread_` sends to the peer it was started for,
and only a question may go to a peer that is not registered any more. -/
theorem sends_cases {sender : Sender} {message : Bytes}
    (h : (peer, sender, message) ∈ s.sends event) :
    (peer ∈ s.peers.keys ∨ ∃ call rand, event = .ask call rand) ∧
      (sender ≠ .baseline ∧ s.connector.peerSendingBaselineTo ≠ some peer ∨
        sender = .baseline ∧ event = .sendBaselineThread ∧ s.sendBaselineThread = .started peer ∧
          s.connector.sendBaselineThread = some message) := by
  have hpropagate : ∀ question, (peer, sender, message) ∈ s.propagate question →
      peer ∈ s.peers.keys ∧ sender ≠ .baseline ∧
        s.connector.peerSendingBaselineTo ≠ some peer := by
    intro question hmem
    obtain ⟨other, hother, heq⟩ := List.mem_map.1 hmem
    cases heq
    obtain ⟨hkey, hbusy⟩ := List.mem_filter.1 hother
    exact ⟨hkey, by simp, of_decide_eq_true hbusy⟩
  cases event with
  | receivedMessage other received =>
    simp only [sends] at h
    split_ifs at h with hcontains
    · split at h
      · next target uid reply hread =>
        cases List.mem_singleton.1 h
        have hdue := s.connector.receivedMessage_dueTo peer hread
        exact ⟨Or.inl (OrdMap.contains_iff.1 hcontains), Or.inl ⟨by simp, hdue.2.1⟩⟩
      · exact absurd h List.not_mem_nil
    · exact absurd h List.not_mem_nil
  | ask call rand =>
    obtain ⟨question, connectedPeers, -, -, hbusy, rfl, -⟩ := mem_ask h
    exact ⟨Or.inr ⟨call, rand, rfl⟩, Or.inl ⟨by simp, hbusy⟩⟩
  | propagateBlock block => exact (hpropagate _ h).imp Or.inl Or.inl
  | propagateActivePeersList list => exact (hpropagate _ h).imp Or.inl Or.inl
  | sendBaselineThread =>
    simp only [sends] at h
    split at h
    · next other root hstarted hroot =>
      split_ifs at h with hcontains
      · cases List.mem_singleton.1 h
        exact ⟨Or.inl (OrdMap.contains_iff.1 hcontains), Or.inr ⟨rfl, rfl, hstarted, hroot⟩⟩
      · exact absurd h List.not_mem_nil
    · exact absurd h List.not_mem_nil
  | _ => exact absurd h List.not_mem_nil

theorem find?_modifyPeer (f : FcoinPeerPlugin → FcoinPeerPlugin) (other : PeerId) :
    (s.modifyPeer peer f).peers.find? other =
      if other = peer then (s.peers.find? other).map f else s.peers.find? other := by
  unfold modifyPeer
  split
  · next hnone =>
    split_ifs with heq
    · rw [heq, hnone]
      rfl
    · rfl
  · next plugin hsome =>
    rw [OrdMap.find?_insert]
    split_ifs with heq
    · rw [heq, hsome]
      rfl
    · rfl

theorem modifyPeer_eq (f : FcoinPeerPlugin → FcoinPeerPlugin) :
    s.modifyPeer peer f = { s with peers := (s.modifyPeer peer f).peers } := by
  unfold modifyPeer
  split <;> rfl

theorem foldl_sendMessage_eq (sends : List (PeerId × Sender × Bytes)) :
    sends.foldl sendMessage s = { s with peers := (sends.foldl sendMessage s).peers } := by
  induction sends generalizing s with
  | nil => rfl
  | cons send sends ih =>
    rw [List.foldl_cons, ih, sendMessage, modifyPeer_eq]

theorem find?_foldl_sendMessage (sends : List (PeerId × Sender × Bytes)) (peer : PeerId) :
    (sends.foldl sendMessage s).peers.find? peer =
      (s.peers.find? peer).map fun plugin =>
        ((sends.filter fun send => send.1 = peer).map Prod.snd).foldl
          (fun plugin send => plugin.sendMessage send.1 send.2) plugin := by
  induction sends generalizing s with
  | nil => simp
  | cons send sends ih =>
    rw [List.foldl_cons, ih, sendMessage, find?_modifyPeer]
    by_cases heq : peer = send.1
    · rw [if_pos heq, List.filter_cons_of_pos (by simp [heq]), Option.map_map]
      rfl
    · rw [if_neg heq, List.filter_cons_of_neg (by simpa using fun h => heq h.symm)]

/-- What a step sends to a peer. -/
def sendsTo (s : PeerConnections) (event : PeerEvent) (peer : PeerId) : List (Sender × Bytes) :=
  ((s.sends event).filter fun send => send.1 = peer).map Prod.snd

theorem mem_sendsTo {send : Sender × Bytes} :
    send ∈ s.sendsTo event peer ↔ (peer, send) ∈ s.sends event := by
  unfold sendsTo
  rw [List.mem_map]
  constructor
  · rintro ⟨⟨other, send⟩, hmem, rfl⟩
    obtain ⟨hsent, heq⟩ := List.mem_filter.1 hmem
    cases of_decide_eq_true heq
    exact hsent
  · intro hmem
    exact ⟨(peer, send), List.mem_filter.2 ⟨hmem, by simp⟩, rfl⟩

/-- **The object of a peer after a step.** -/
theorem find?_step (s : PeerConnections) (event : PeerEvent) (peer : PeerId) :
    (s.step event).peers.find? peer =
      ((s.change event).peers.find? peer).map fun plugin =>
        (s.sendsTo event peer).foldl (fun plugin send => plugin.sendMessage send.1 send.2)
          plugin :=
  find?_foldl_sendMessage _ _

theorem step_eq (s : PeerConnections) (event : PeerEvent) :
    s.step event = { s.change event with peers := (s.step event).peers } :=
  foldl_sendMessage_eq _

/-- What an event does to the object of a peer before anything is sent. -/
inductive PluginChange (plugin : FcoinPeerPlugin) : FcoinPeerPlugin → Prop
  | same : PluginChange plugin plugin
  | handshake (id : PeerId) : PluginChange plugin { plugin with id }
  | tick : PluginChange plugin plugin.tick
  | transmit (count : Nat) : PluginChange plugin (plugin.transmit count)

theorem find?_touch (peers : OrdMap PeerId FcoinPeerPlugin) (other : PeerId) :
    (peers.touch other {}).find? peer =
      if peers.contains other = false ∧ peer = other then some {} else peers.find? peer := by
  unfold OrdMap.touch
  cases hcontains : peers.contains other with
  | true => simp
  | false => simp [OrdMap.find?_insert]

theorem peers_runThread (s : PeerConnections) : s.runThread.peers = s.peers := by
  unfold runThread
  split
  · rfl
  · split <;> rfl
  · split
    · rfl
    · split_ifs <;> rfl
  · rfl

/-- The object is new, or it is what became of the object that was there. -/
theorem find?_change {plugin' : FcoinPeerPlugin}
    (h : (s.change event).peers.find? peer = some plugin') :
    plugin' = {} ∨ ∃ plugin, s.peers.find? peer = some plugin ∧ PluginChange plugin plugin' := by
  have hmodify : ∀ (other : PeerId) (f : FcoinPeerPlugin → FcoinPeerPlugin),
      (∀ plugin, PluginChange plugin (f plugin)) →
      (s.modifyPeer other f).peers.find? peer = some plugin' →
      ∃ plugin, s.peers.find? peer = some plugin ∧ PluginChange plugin plugin' := by
    intro other f hf hfind
    rw [find?_modifyPeer] at hfind
    split_ifs at hfind
    · obtain ⟨plugin, hplugin, rfl⟩ := Option.map_eq_some_iff.1 hfind
      exact ⟨plugin, hplugin, hf plugin⟩
    · exact ⟨plugin', hfind, .same⟩
  cases event with
  | registerPeer other =>
    simp only [change] at h
    rw [find?_touch] at h
    split_ifs at h
    · exact Or.inl (Option.some.inj h).symm
    · exact Or.inr ⟨plugin', h, .same⟩
  | unregisterPeer other =>
    simp only [change] at h
    rw [OrdMap.find?_erase] at h
    split_ifs at h
    exact Or.inr ⟨plugin', h, .same⟩
  | handshake other id => exact Or.inr (hmodify other _ (fun _ => .handshake id) h)
  | tick other => exact Or.inr (hmodify other _ (fun _ => .tick) h)
  | transmit other count => exact Or.inr (hmodify other _ (fun _ => .transmit count) h)
  | receivedMessage other message =>
    refine Or.inr ⟨plugin', ?_, .same⟩
    simp only [change] at h
    split_ifs at h
    · split at h <;> exact h
    · exact h
  | sendBaselineThread => exact Or.inr ⟨plugin', peers_runThread s ▸ h, .same⟩
  | _ => exact Or.inr ⟨plugin', h, .same⟩

/-- **Where the thread is after a step.** -/
theorem change_cases (s : PeerConnections) (event : PeerEvent) :
    ((s.change event).connector.peerSendingBaselineTo = s.connector.peerSendingBaselineTo ∧
      (s.change event).sendBaselineThread = s.sendBaselineThread ∧
      (s.change event).transfers = s.transfers ∧
      (s.change event).baselinesSent = s.baselinesSent ∧ event ≠ .sendBaselineThread) ∨
    (∃ peer, s.connector.peerSendingBaselineTo = none ∧
      (s.change event).connector.peerSendingBaselineTo = some peer ∧
      (s.change event).sendBaselineThread = .started peer ∧
      (s.change event).transfers = s.transfers + 1 ∧
      (s.change event).baselinesSent = s.baselinesSent ∧ event ≠ .sendBaselineThread) ∨
    event = .sendBaselineThread ∧ s.change event = s.runThread := by
  have hmodify : ∀ (peer : PeerId) (f : FcoinPeerPlugin → FcoinPeerPlugin),
      (s.modifyPeer peer f).connector.peerSendingBaselineTo = s.connector.peerSendingBaselineTo ∧
      (s.modifyPeer peer f).sendBaselineThread = s.sendBaselineThread ∧
      (s.modifyPeer peer f).transfers = s.transfers ∧
      (s.modifyPeer peer f).baselinesSent = s.baselinesSent := by
    intro peer f
    rw [modifyPeer_eq]
    exact ⟨rfl, rfl, rfl, rfl⟩
  cases event with
  | handshake peer id =>
    obtain ⟨hpointer, hthread, htransfers, hsent⟩ := hmodify peer fun plugin => { plugin with id }
    exact Or.inl ⟨hpointer, hthread, htransfers, hsent, by simp⟩
  | tick peer =>
    obtain ⟨hpointer, hthread, htransfers, hsent⟩ := hmodify peer FcoinPeerPlugin.tick
    exact Or.inl ⟨hpointer, hthread, htransfers, hsent, by simp⟩
  | transmit peer count =>
    obtain ⟨hpointer, hthread, htransfers, hsent⟩ :=
      hmodify peer fun plugin => plugin.transmit count
    exact Or.inl ⟨hpointer, hthread, htransfers, hsent, by simp⟩
  | receivedMessage other message =>
    simp only [change]
    -- Only a question for the baseline starts a transfer.
    split_ifs
    · split
      · next peer hread =>
        obtain ⟨rfl, hfree⟩ := s.connector.receivedMessage_dueTo other hread
        refine Or.inr (Or.inl ⟨peer, hfree, ?_, rfl, rfl, rfl, by simp⟩)
        simp only [P2PConnector.afterMessage, hread]
      · exact Or.inl ⟨rfl, rfl, rfl, rfl, by simp⟩
    · exact Or.inl ⟨rfl, rfl, rfl, rfl, by simp⟩
  | sendBaselineThread => exact Or.inr (Or.inr ⟨rfl, rfl⟩)
  | _ => exact Or.inl ⟨rfl, rfl, rfl, rfl, by simp⟩

/-! ## The invariant -/

/-- A baseline was the last thing that was sent to the peer, unless the object is a new one at the
place of an old one. -/
def BaselineLast (plugin : FcoinPeerPlugin) : Prop :=
  plugin.given = [] ∨ ∃ root : BaselineBlock,
    (plugin.handed ++ plugin.bufferedMsgs).getLast? = some (.baseline, baselineMessage root true)

variable (s) in
structure Inv : Prop where
  /-- `peer_sending_baseline_to_` is set while the thread runs. -/
  pointer : s.connector.peerSendingBaselineTo = s.sendBaselineThread.peer
  baselines : s.baselinesSent + s.sendBaselineThread.pending ≤ s.transfers
  accounted : ∀ peer plugin, s.peers.find? peer = some plugin → plugin.Accounted
  waiting : ∀ peer plugin, s.sendBaselineThread = .waiting peer →
    s.peers.find? peer = some plugin → BaselineLast plugin

/-- No peers yet, and no thread. -/
structure Starts (s : PeerConnections) : Prop where
  peers : s.peers = ∅
  thread : s.sendBaselineThread = .finished
  pointer : s.connector.peerSendingBaselineTo = none
  counters : s.baselinesSent ≤ s.transfers

theorem Starts.inv (h : s.Starts) : s.Inv where
  pointer := by rw [h.pointer, h.thread, SendBaselineThread.peer]
  baselines := by
    rw [h.thread]
    exact h.counters
  accounted peer plugin hfind := by
    rw [h.peers, OrdMap.find?_empty] at hfind
    cases hfind
  waiting peer plugin hwaiting := by
    rw [h.thread] at hwaiting
    cases hwaiting

theorem PluginChange.accounted {plugin plugin' : FcoinPeerPlugin}
    (h : PluginChange plugin plugin') (hplugin : plugin.Accounted) : plugin'.Accounted := by
  cases h with
  | same => exact hplugin
  | handshake id => exact ⟨hplugin.network, hplugin.others, hplugin.packets⟩
  | tick => exact hplugin.tick
  | transmit count => exact hplugin.transmit count

/-- Nothing of this changes what was sent or its order. -/
theorem PluginChange.baselineLast {plugin plugin' : FcoinPeerPlugin}
    (h : PluginChange plugin plugin') (hplugin : BaselineLast plugin) : BaselineLast plugin' := by
  cases h with
  | same => exact hplugin
  | handshake id => exact hplugin
  | tick =>
    rw [plugin.tick_eq, BaselineLast]
    simp only [List.append_nil]
    exact hplugin
  | transmit count => exact hplugin

theorem PluginChange.outstanding_le {plugin plugin' : FcoinPeerPlugin}
    (h : PluginChange plugin plugin') : plugin'.outstanding ≤ plugin.outstanding := by
  cases h with
  | same => exact Nat.le_refl _
  | handshake id => exact Nat.le_refl _
  | tick =>
    rw [plugin.tick_eq]
    simp [FcoinPeerPlugin.outstanding]
  | transmit count =>
    simp only [FcoinPeerPlugin.outstanding, FcoinPeerPlugin.transmit, List.length_drop]
    omega

theorem PluginChange.drained {plugin plugin' : FcoinPeerPlugin} (h : PluginChange plugin plugin')
    {bound : Nat} (hbuffered : plugin.bufferedMsgs = [])
    (hlength : plugin.sendBuffer.length ≤ bound) :
    plugin'.bufferedMsgs = [] ∧ plugin'.sendBuffer.length ≤ bound := by
  cases h with
  | same => exact ⟨hbuffered, hlength⟩
  | handshake id => exact ⟨hbuffered, hlength⟩
  | tick =>
    rw [plugin.tick_eq, hbuffered]
    exact ⟨rfl, by simpa using hlength⟩
  | transmit count =>
    refine ⟨hbuffered, ?_⟩
    rw [FcoinPeerPlugin.transmit, List.length_drop]
    exact (Nat.sub_le _ _).trans hlength

theorem accounted_foldl {plugin : FcoinPeerPlugin} (h : plugin.Accounted)
    (messages : List (Sender × Bytes)) :
    (messages.foldl (fun plugin send => plugin.sendMessage send.1 send.2) plugin).Accounted := by
  induction messages generalizing plugin with
  | nil => exact h
  | cons message messages ih => exact ih (h.sendMessage message.1 message.2)

theorem accounted_step
    (h : ∀ peer plugin, s.peers.find? peer = some plugin → plugin.Accounted) (event : PeerEvent) :
    ∀ peer plugin, (s.step event).peers.find? peer = some plugin → plugin.Accounted := by
  intro peer plugin hfind
  rw [find?_step] at hfind
  obtain ⟨changed, hchanged, rfl⟩ := Option.map_eq_some_iff.1 hfind
  refine accounted_foldl ?_ _
  rcases find?_change hchanged with rfl | ⟨before, hbefore, hchange⟩
  · exact FcoinPeerPlugin.accounted_new
  · exact hchange.accounted (h peer before hbefore)

theorem Inv.sendsTo_eq_nil (h : s.Inv) (hpeer : s.sendBaselineThread.peer = some peer)
    (hstarted : s.sendBaselineThread ≠ .started peer) : s.sendsTo event peer = [] := by
  refine List.eq_nil_iff_forall_not_mem.2 fun send hsend => ?_
  rcases (sends_cases (mem_sendsTo.1 hsend)).2 with ⟨-, hbusy⟩ | ⟨-, -, hthread, -⟩
  · exact hbusy (h.pointer.trans hpeer)
  · exact hstarted hthread

theorem sendsTo_started (h : s.sendBaselineThread = .started peer) {root : BaselineBlock}
    (hroot : s.connector.sendBaselineThread = some (baselineMessage root true))
    (hpeer : peer ∈ s.peers.keys) :
    s.sendsTo .sendBaselineThread peer = [(.baseline, baselineMessage root true)] := by
  simp [sendsTo, sends, h, hroot, OrdMap.contains_iff.2 hpeer]

theorem sendBaselineThread_message {connector : P2PConnector} {message : Bytes}
    (h : connector.sendBaselineThread = some message) :
    ∃ root, message = baselineMessage root true := by
  unfold P2PConnector.sendBaselineThread at h
  split at h
  · next root hroot => exact ⟨root, (Option.some.inj h).symm⟩
  · cases h

/-- **A step of the thread.** -/
theorem runThread_cases (s : PeerConnections) :
    (s.runThread = s ∧ (s.sendBaselineThread = .finished ∨
      ∃ peer plugin, s.sendBaselineThread = .waiting peer ∧
        s.peers.find? peer = some plugin ∧ plugin.sendBufferEmpty = false)) ∨
    (∃ peer, s.sendBaselineThread = .started peer ∧ s.connector.sendBaselineThread = none ∧
      s.runThread = { s with sendBaselineThread := .ending peer }) ∨
    (∃ peer root, s.sendBaselineThread = .started peer ∧
      s.connector.sendBaselineThread = some (baselineMessage root true) ∧
      s.runThread = { s with
        sendBaselineThread := .waiting peer
        baselinesSent :=
          if s.peers.contains peer then s.baselinesSent + 1 else s.baselinesSent }) ∨
    (∃ peer, s.sendBaselineThread = .waiting peer ∧
      (∀ plugin, s.peers.find? peer = some plugin → plugin.sendBufferEmpty = true) ∧
      s.runThread = { s with sendBaselineThread := .ending peer }) ∨
    ∃ peer, s.sendBaselineThread = .ending peer ∧
      s.runThread = { s with
        sendBaselineThread := .finished
        connector := { s.connector with peerSendingBaselineTo := none } } := by
  unfold runThread
  split
  · next hthread => exact Or.inl ⟨rfl, Or.inl hthread⟩
  · next peer hthread =>
    split
    · next hnone => exact Or.inr (Or.inl ⟨peer, hthread, hnone, rfl⟩)
    · next message hsome =>
      obtain ⟨root, rfl⟩ := sendBaselineThread_message hsome
      exact Or.inr (Or.inr (Or.inl ⟨peer, root, hthread, hsome, rfl⟩))
  · next peer hthread =>
    -- A peer that is gone counts as one whose buffers are empty.
    split
    · next hnone =>
      refine Or.inr (Or.inr (Or.inr (Or.inl ⟨peer, hthread, fun plugin hfind => ?_, rfl⟩)))
      rw [hnone] at hfind
      cases hfind
    · next plugin hfind =>
      split_ifs with hempty
      · refine Or.inr (Or.inr (Or.inr (Or.inl ⟨peer, hthread, fun other hother => ?_, rfl⟩)))
        rw [hfind] at hother
        cases hother
        exact hempty
      · exact Or.inl ⟨rfl, Or.inr ⟨peer, plugin, hthread, hfind, by simpa using hempty⟩⟩
  · next peer hthread => exact Or.inr (Or.inr (Or.inr (Or.inr ⟨peer, hthread, rfl⟩)))

/-- What was sent last stays the last while the thread waits. -/
theorem Inv.baselineLast_step (h : s.Inv) (hwaiting : s.sendBaselineThread = .waiting peer)
    {plugin : FcoinPeerPlugin} (hfind : (s.step event).peers.find? peer = some plugin) :
    BaselineLast plugin := by
  rw [find?_step, h.sendsTo_eq_nil (by rw [hwaiting, SendBaselineThread.peer]) (by simp [hwaiting])]
    at hfind
  obtain ⟨changed, hchanged, rfl⟩ := Option.map_eq_some_iff.1 hfind
  rcases find?_change hchanged with rfl | ⟨before, hbefore, hchange⟩
  · exact Or.inl rfl
  · exact hchange.baselineLast (h.waiting peer before hwaiting hbefore)

theorem Inv.pointer_step (h : s.Inv) (event : PeerEvent) :
    (s.step event).connector.peerSendingBaselineTo = (s.step event).sendBaselineThread.peer := by
  rw [step_eq]
  dsimp only
  rcases change_cases s event with ⟨hpointer, hthread, -⟩ | ⟨peer, -, hpointer, hthread, -⟩ |
    ⟨-, hrun⟩
  · rw [hpointer, hthread, h.pointer]
  · rw [hpointer, hthread, SendBaselineThread.peer]
  · rw [hrun]
    rcases runThread_cases s with ⟨hrun, -⟩ | ⟨peer, hstarted, -, hrun⟩ |
      ⟨peer, root, hstarted, -, hrun⟩ | ⟨peer, hwaiting, -, hrun⟩ | ⟨peer, -, hrun⟩ <;> rw [hrun]
    · exact h.pointer
    · simp only [h.pointer, hstarted, SendBaselineThread.peer]
    · simp only [h.pointer, hstarted, SendBaselineThread.peer]
    · simp only [h.pointer, hwaiting, SendBaselineThread.peer]
    · rfl

theorem Inv.baselines_step (h : s.Inv) (event : PeerEvent) :
    (s.step event).baselinesSent + (s.step event).sendBaselineThread.pending ≤
      (s.step event).transfers := by
  have hbaselines := h.baselines
  rw [step_eq]
  dsimp only
  rcases change_cases s event with ⟨-, hthread, htransfers, hsent, -⟩ |
    ⟨peer, -, -, hthread, htransfers, hsent, -⟩ | ⟨-, hrun⟩
  · rw [hthread, htransfers, hsent]
    exact hbaselines
  · rw [hthread, htransfers, hsent]
    exact Nat.succ_le_succ (le_of_add_le_left hbaselines)
  · rw [hrun]
    rcases runThread_cases s with ⟨hrun, -⟩ | ⟨peer, hstarted, -, hrun⟩ |
      ⟨peer, root, hstarted, -, hrun⟩ | ⟨peer, hwaiting, -, hrun⟩ | ⟨peer, -, hrun⟩ <;> rw [hrun]
    · exact hbaselines
    · exact le_of_add_le_left hbaselines
    · rw [hstarted, SendBaselineThread.pending] at hbaselines
      dsimp only [SendBaselineThread.pending]
      split_ifs <;> omega
    · exact le_of_add_le_left hbaselines
    · exact le_of_add_le_left hbaselines

theorem Inv.waiting_step (h : s.Inv) (event : PeerEvent) {plugin : FcoinPeerPlugin}
    (hwaiting : (s.step event).sendBaselineThread = .waiting peer)
    (hfind : (s.step event).peers.find? peer = some plugin) : BaselineLast plugin := by
  have hthread : (s.step event).sendBaselineThread = (s.change event).sendBaselineThread := by
    rw [step_eq]
  rw [hthread] at hwaiting
  rcases change_cases s event with ⟨-, hthread, -⟩ | ⟨other, -, -, hthread, -⟩ | ⟨rfl, hrun⟩
  · exact h.baselineLast_step (hthread.symm.trans hwaiting) hfind
  · rw [hthread] at hwaiting
    cases hwaiting
  · rw [hrun] at hwaiting
    rcases runThread_cases s with ⟨hrun', -⟩ | ⟨other, -, -, hrun'⟩ |
      ⟨other, root, hstarted, hroot, hrun'⟩ | ⟨other, -, -, hrun'⟩ | ⟨other, -, hrun'⟩ <;>
      rw [hrun'] at hwaiting
    · exact h.baselineLast_step hwaiting hfind
    · cases hwaiting
    · -- The baseline has just been sent.
      cases hwaiting
      rw [find?_step] at hfind
      obtain ⟨changed, hchanged, rfl⟩ := Option.map_eq_some_iff.1 hfind
      have hkey : peer ∈ s.peers.keys := by
        rw [hrun, peers_runThread] at hchanged
        exact OrdMap.mem_keys.2 ⟨changed, OrdMap.find?_eq_some_iff.1 hchanged⟩
      rw [sendsTo_started hstarted hroot hkey]
      refine Or.inr ⟨root, ?_⟩
      simp [FcoinPeerPlugin.sendMessage]
    · cases hwaiting
    · cases hwaiting

theorem Inv.step (h : s.Inv) (event : PeerEvent) : (s.step event).Inv where
  pointer := h.pointer_step event
  baselines := h.baselines_step event
  accounted := accounted_step h.accounted event
  waiting _ _ hwaiting hfind := h.waiting_step event hwaiting hfind

theorem Starts.inv_run (h : s.Starts) (events : List PeerEvent) :
    Run.AllStates step Inv s events := by
  have hsteps : Run.AllSteps step (fun _ _ => True) s events :=
    Run.AllSteps.of_forall_mem fun _ _ _ => trivial
  exact Run.AllStates.of_steps (fun s event hs _ => hs.step event) h.inv hsteps

end PeerConnections

end SwabianCoin
