import SwabianCoin.PeerConnections

/-!
# Transfers of baselines

Runs of a connector and its peers. Messages arrive whole and in order (`arrives_in_order`); at any
time at most one peer is getting a baseline (`one_baseline_at_a_time`), and when the thread stops
waiting this peer has it (`baseline_arrives`). The thread goes on waiting exactly as long as its
peer does not take what it was sent (`waits_iff_stalled`, `transfer_ends`).
-/

namespace SwabianCoin

/-! ## Messages and baselines -/

namespace Sample

/-- A connector with a chain that has a root. -/
def connections : PeerConnections :=
  { connector := { blockchain := ({} : Blockchain).initEmptyChain .sample } }

/-- A peer asks for the baseline. -/
def transfer : List PeerEvent :=
  [.registerPeer [1], .receivedMessage [1] P2PConnector.askForLastBaselineBlock,
    .sendBaselineThread]

/-- It gets the baseline, and the thread finds its buffers empty. -/
def wholeTransfer : List PeerEvent :=
  transfer ++ [.tick [1], .transmit [1] 1000, .sendBaselineThread]

theorem starts_connections : connections.Starts :=
  ⟨rfl, rfl, rfl, Nat.le_refl _⟩

end Sample

namespace PeerConnections

variable {s : PeerConnections}

/-- **Messages arrive whole and in order.** At any time, of what was sent to a peer, the other side
has read a first part of the messages of the network thread and a first part of the messages of the
other threads, and all of them when the buffers are empty. -/
theorem arrives_in_order (h : s.Starts) (events : List PeerEvent) :
    Run.AllStates step (fun t => ∀ peer plugin, t.peers.find? peer = some plugin →
      (∀ message ∈ plugin.given, message.2.length + 2 < 2 ^ 31) →
      ∃ order : List (Sender × Bytes),
        receivePackets plugin.wire.length plugin.wire = order.map Prod.snd ∧
        order.filter FcoinPeerPlugin.ofNetwork <+:
          plugin.given.filter FcoinPeerPlugin.ofNetwork ∧
        order.filter (fun message => !FcoinPeerPlugin.ofNetwork message) <+:
          plugin.given.filter (fun message => !FcoinPeerPlugin.ofNetwork message) ∧
        (plugin.sendBufferEmpty = true →
          order.filter FcoinPeerPlugin.ofNetwork =
            plugin.given.filter FcoinPeerPlugin.ofNetwork ∧
          order.filter (fun message => !FcoinPeerPlugin.ofNetwork message) =
            plugin.given.filter fun message => !FcoinPeerPlugin.ofNetwork message)) s events :=
  (h.inv_run events).mono fun _ hinv peer plugin hfind hshort =>
    (hinv.accounted peer plugin hfind).received hshort

theorem transfer_arrives_in_order :
    Sample.connections.Starts ∧
      Run.AllStates step (fun t => ∀ peer plugin, t.peers.find? peer = some plugin →
        (∀ message ∈ plugin.given, message.2.length + 2 < 2 ^ 31) →
        ∃ order : List (Sender × Bytes),
          receivePackets plugin.wire.length plugin.wire = order.map Prod.snd ∧
          order.filter FcoinPeerPlugin.ofNetwork <+:
            plugin.given.filter FcoinPeerPlugin.ofNetwork ∧
          order.filter (fun message => !FcoinPeerPlugin.ofNetwork message) <+:
            plugin.given.filter (fun message => !FcoinPeerPlugin.ofNetwork message) ∧
          (plugin.sendBufferEmpty = true →
            order.filter FcoinPeerPlugin.ofNetwork =
              plugin.given.filter FcoinPeerPlugin.ofNetwork ∧
            order.filter (fun message => !FcoinPeerPlugin.ofNetwork message) =
              plugin.given.filter fun message => !FcoinPeerPlugin.ofNetwork message))
        Sample.connections Sample.wholeTransfer :=
  ⟨Sample.starts_connections, arrives_in_order Sample.starts_connections Sample.wholeTransfer⟩

/-- The peer is there and has not taken everything yet. -/
def Stalled (t : PeerConnections) (peer : PeerId) : Prop :=
  ∃ plugin, t.peers.find? peer = some plugin ∧ plugin.sendBufferEmpty = false

theorem Inv.step_waiting (h : s.Inv) {peer : PeerId} (event : PeerEvent)
    (hwaiting : s.sendBaselineThread = .waiting peer) :
    ((s.step event).sendBaselineThread = .waiting peer ↔
      (event = .sendBaselineThread → s.Stalled peer)) ∧
    (s.step event).transfers = s.transfers ∧ (s.step event).baselinesSent = s.baselinesSent := by
  rw [step_eq]
  dsimp only
  rcases change_cases s event with ⟨-, hthread, htransfers, hsent, hother⟩ | ⟨other, hfree, -⟩ |
    ⟨rfl, hrun⟩
  · rw [hthread]
    exact ⟨iff_of_true hwaiting fun hevent => absurd hevent hother, htransfers, hsent⟩
  -- No transfer starts while the pointer is set.
  · rw [h.pointer, hwaiting, SendBaselineThread.peer] at hfree
    cases hfree
  · rw [hrun]
    rcases runThread_cases s with ⟨hrun, hcase⟩ | ⟨other, hstarted, -⟩ |
      ⟨other, root, hstarted, -⟩ | ⟨other, hother, hempty, hrun⟩ | ⟨other, hending, -⟩
    · rw [hrun]
      refine ⟨iff_of_true hwaiting fun _ => ?_, rfl, rfl⟩
      rcases hcase with hfinished | ⟨other, plugin, hother, hfind, hempty⟩
      · rw [hwaiting] at hfinished
        cases hfinished
      · rw [hwaiting] at hother
        cases hother
        exact ⟨plugin, hfind, hempty⟩
    · rw [hwaiting] at hstarted
      cases hstarted
    · rw [hwaiting] at hstarted
      cases hstarted
    · rw [hwaiting] at hother
      cases hother
      rw [hrun]
      refine ⟨iff_of_false (by simp) fun hstalled => ?_, rfl, rfl⟩
      obtain ⟨plugin, hfind, hfull⟩ := hstalled rfl
      rw [hempty plugin hfind] at hfull
      cases hfull
    · rw [hwaiting] at hending
      cases hending

/-- **A peer that does not take its baseline.** The thread waits in every state of a run exactly if
the peer is there with something in its buffers whenever the thread looks. Until then the thread
sends no baseline to anybody, and the peer gets nothing at all. -/
theorem waits_iff_stalled (h : s.Starts) (before after : List PeerEvent) (peer : PeerId)
    (hwaiting : (Run.exec step s before).sendBaselineThread = .waiting peer) :
    (Run.AllStates step (fun t => t.sendBaselineThread = .waiting peer)
        (Run.exec step s before) after ↔
      Run.AllSteps step (fun t event => event = .sendBaselineThread → t.Stalled peer)
        (Run.exec step s before) after) ∧
    (Run.AllSteps step (fun t event => event = .sendBaselineThread → t.Stalled peer)
        (Run.exec step s before) after →
      Run.AllStates step (fun t => t.transfers = (Run.exec step s before).transfers ∧
          t.baselinesSent = (Run.exec step s before).baselinesSent ∧
          (∀ event other message, (other, .baseline, message) ∉ t.sends event) ∧
          ∀ event, t.sendsTo event peer = [])
        (Run.exec step s before) after) := by
  have hinv : (Run.exec step s before).Inv := (h.inv_run before).last
  constructor
  · have hsteps : Run.AllSteps step (fun _ _ => True) (Run.exec step s before) after :=
      Run.AllSteps.of_forall_mem fun _ _ _ => trivial
    exact Run.AllStates.iff_allSteps_with (J := Inv)
      (fun t event ht hthread _ =>
        ⟨(ht.step_waiting event hthread).1, fun _ => ht.step event⟩) hinv hwaiting hsteps
  · intro hstalled
    have hkeeps : Run.AllStates step (fun t => t.Inv ∧ t.sendBaselineThread = .waiting peer ∧
        t.transfers = (Run.exec step s before).transfers ∧
        t.baselinesSent = (Run.exec step s before).baselinesSent)
        (Run.exec step s before) after := by
      refine Run.AllStates.of_steps (fun t event ht hevent => ?_) ⟨hinv, hwaiting, rfl, rfl⟩
        hstalled
      obtain ⟨ht, hthread, htransfers, hsent⟩ := ht
      obtain ⟨hiff, htransfers', hsent'⟩ := ht.step_waiting event hthread
      exact ⟨ht.step event, hiff.2 hevent, htransfers'.trans htransfers, hsent'.trans hsent⟩
    refine hkeeps.mono fun t ht =>
      ⟨ht.2.2.1, ht.2.2.2, fun event other message hsend => ?_, fun event => ?_⟩
    · rcases (sends_cases hsend).2 with ⟨hsender, -⟩ | ⟨-, -, hstarted, -⟩
      · exact hsender rfl
      · rw [ht.2.1] at hstarted
        cases hstarted
    · exact ht.1.sendsTo_eq_nil (by rw [ht.2.1, SendBaselineThread.peer]) (by simp [ht.2.1])

theorem transfer_waits_iff_stalled :
    (Run.exec step Sample.connections Sample.transfer).sendBaselineThread = .waiting [1] ∧
    (Run.AllStates step (fun t => t.sendBaselineThread = .waiting [1])
        (Run.exec step Sample.connections Sample.transfer) [.tick [1], .sendBaselineThread] ↔
      Run.AllSteps step (fun t event => event = .sendBaselineThread → t.Stalled [1])
        (Run.exec step Sample.connections Sample.transfer) [.tick [1], .sendBaselineThread]) := by
  have hwaiting : (Run.exec step Sample.connections Sample.transfer).sendBaselineThread =
      .waiting [1] := by
    decide +kernel
  exact ⟨hwaiting, (waits_iff_stalled Sample.starts_connections Sample.transfer _ [1] hwaiting).1⟩

/-! ## Progress -/

/-- The bytes a step takes from the send buffer of a peer. -/
def transmitted (peer : PeerId) : PeerEvent → Nat
  | .transmit other count => if other = peer then count else 0
  | _ => 0

/-- At most so many bytes are left for the peer. -/
def LeftAtMost (t : PeerConnections) (peer : PeerId) (bound : Nat) : Prop :=
  ∀ plugin, t.peers.find? peer = some plugin → plugin.outstanding ≤ bound

/-- At most so many bytes are left for the peer, all of them in its send buffer. -/
def Drained (t : PeerConnections) (peer : PeerId) (bound : Nat) : Prop :=
  ∀ plugin, t.peers.find? peer = some plugin →
    plugin.bufferedMsgs = [] ∧ plugin.sendBuffer.length ≤ bound

variable {peer : PeerId}

/-- While the thread waits, a step does nothing to the peer but what the network does. -/
theorem Inv.find?_step_waiting (h : s.Inv) (event : PeerEvent)
    (hwaiting : s.sendBaselineThread = .waiting peer) :
    (s.step event).peers.find? peer = (s.change event).peers.find? peer := by
  rw [find?_step, h.sendsTo_eq_nil (by rw [hwaiting, SendBaselineThread.peer]) (by simp [hwaiting])]
  simp

theorem Inv.leftAtMost_step (h : s.Inv) (event : PeerEvent)
    (hwaiting : s.sendBaselineThread = .waiting peer) {bound : Nat}
    (hleft : s.LeftAtMost peer bound) : (s.step event).LeftAtMost peer bound := by
  intro plugin hfind
  rw [h.find?_step_waiting event hwaiting] at hfind
  rcases find?_change hfind with rfl | ⟨before, hbefore, hchange⟩
  · exact Nat.zero_le _
  · exact hchange.outstanding_le.trans (hleft before hbefore)

theorem Inv.drained_tick (h : s.Inv) (hwaiting : s.sendBaselineThread = .waiting peer) {bound : Nat}
    (hleft : s.LeftAtMost peer bound) : (s.step (.tick peer)).Drained peer bound := by
  intro plugin hfind
  rw [h.find?_step_waiting (.tick peer) hwaiting, change, find?_modifyPeer, if_pos rfl] at hfind
  obtain ⟨before, hbefore, rfl⟩ := Option.map_eq_some_iff.1 hfind
  rw [before.tick_eq]
  exact ⟨rfl, by simpa [FcoinPeerPlugin.outstanding] using hleft before hbefore⟩

theorem Inv.drained_step (h : s.Inv) (event : PeerEvent)
    (hwaiting : s.sendBaselineThread = .waiting peer) {bound : Nat}
    (hdrained : s.Drained peer bound) :
    (s.step event).Drained peer (bound - transmitted peer event) := by
  intro plugin hfind
  rw [h.find?_step_waiting event hwaiting] at hfind
  by_cases htransmit : ∃ count, event = .transmit peer count
  · obtain ⟨count, rfl⟩ := htransmit
    rw [change, find?_modifyPeer, if_pos rfl] at hfind
    obtain ⟨before, hbefore, rfl⟩ := Option.map_eq_some_iff.1 hfind
    obtain ⟨hbuffered, hlength⟩ := hdrained before hbefore
    refine ⟨hbuffered, ?_⟩
    rw [FcoinPeerPlugin.transmit, List.length_drop, transmitted, if_pos rfl]
    exact Nat.sub_le_sub_right hlength count
  · have hnothing : transmitted peer event = 0 := by
      cases event with
      | transmit other count =>
        exact if_neg fun heq => htransmit ⟨count, by rw [heq]⟩
      | _ => rfl
    rw [hnothing, Nat.sub_zero]
    rcases find?_change hfind with rfl | ⟨before, hbefore, hchange⟩
    · exact ⟨rfl, Nat.zero_le _⟩
    · exact hchange.drained (hdrained before hbefore).1 (hdrained before hbefore).2

/-- A run in which the thread waits in every state its steps meet. -/
def WaitsFor (peer : PeerId) (t : PeerConnections) (_ : PeerEvent) : Prop :=
  t.Inv ∧ t.sendBaselineThread = .waiting peer

theorem leftAtMost_run {events : List PeerEvent} {bound : Nat}
    (hwaits : Run.AllSteps step (WaitsFor peer) s events) (hleft : s.LeftAtMost peer bound) :
    (Run.exec step s events).LeftAtMost peer bound := by
  induction events generalizing s with
  | nil => exact hleft
  | cons event events ih =>
    obtain ⟨⟨hinv, hwaiting⟩, hlater⟩ := hwaits
    exact ih hlater (hinv.leftAtMost_step event hwaiting hleft)

theorem drained_run {events : List PeerEvent} {bound : Nat}
    (hwaits : Run.AllSteps step (WaitsFor peer) s events) (hdrained : s.Drained peer bound) :
    (Run.exec step s events).Drained peer (bound - (events.map (transmitted peer)).sum) := by
  induction events generalizing s bound with
  | nil => exact hdrained
  | cons event events ih =>
    obtain ⟨⟨hinv, hwaiting⟩, hlater⟩ := hwaits
    have hnext := ih hlater (hinv.drained_step event hwaiting hdrained)
    rw [Nat.sub_sub] at hnext
    exact hnext

/-- **A transfer ends.** Whatever else happens, when after a `tick` of the peer as many bytes have
left for it as there were to send, the thread does not wait any longer. -/
theorem transfer_ends (h : s.Starts) (before first second : List PeerEvent) (peer : PeerId)
    (henough : ∀ plugin, (Run.exec step s before).peers.find? peer = some plugin →
      plugin.outstanding ≤ (second.map (transmitted peer)).sum) :
    ¬ Run.AllStates step (fun t => t.sendBaselineThread = .waiting peer)
      (Run.exec step s before) (first ++ .tick peer :: (second ++ [.sendBaselineThread])) := by
  intro hforever
  have hwaits : Run.AllSteps step (WaitsFor peer) (Run.exec step s before)
      (first ++ .tick peer :: (second ++ [.sendBaselineThread])) :=
    (hforever.allSteps.with_invariant (fun t event ht _ => ht.step event)
      (h.inv_run before).last).mono fun t event ht => ht
  obtain ⟨hfirst, ⟨hinv, htick⟩, hsecond⟩ := Run.AllSteps.append.1 hwaits
  obtain ⟨hsecond, ⟨hinv', hlast⟩, -⟩ := Run.AllSteps.append.1 hsecond
  have hdrained := drained_run hsecond (hinv.drained_tick htick (leftAtMost_run hfirst henough))
  rw [Nat.sub_self] at hdrained
  -- The last step of the thread meets empty buffers.
  have hend := hforever.last
  rw [Run.exec_append, Run.exec_cons, Run.exec_append] at hend
  obtain ⟨plugin, hfind, hfull⟩ := (hinv'.step_waiting .sendBaselineThread hlast).1.1 hend rfl
  obtain ⟨hbuffered, hlength⟩ := hdrained plugin hfind
  have hempty : plugin.sendBuffer = [] := List.eq_nil_of_length_eq_zero (Nat.le_zero.1 hlength)
  simp [FcoinPeerPlugin.sendBufferEmpty, hbuffered, hempty] at hfull

/-- The packet with the empty root has `184` bytes. -/
theorem transfer_of_root_ends :
    (Run.exec step Sample.connections Sample.transfer).sendBaselineThread = .waiting [1] ∧
    ¬ Run.AllStates step (fun t => t.sendBaselineThread = .waiting [1])
      (Run.exec step Sample.connections Sample.transfer)
      ([] ++ .tick [1] :: ([.transmit [1] 100, .transmit [1] 84] ++ [.sendBaselineThread])) := by
  refine ⟨by decide +kernel, transfer_ends Sample.starts_connections Sample.transfer []
    [.transmit [1] 100, .transmit [1] 84] [1] fun plugin hfind => ?_⟩
  have houtstanding : ((Run.exec step Sample.connections Sample.transfer).peers.find? [1]).map
      FcoinPeerPlugin.outstanding = some 184 := by
    decide +kernel
  rw [hfind, Option.map_some, Option.some.injEq] at houtstanding
  rw [houtstanding]
  decide

end PeerConnections

end SwabianCoin
