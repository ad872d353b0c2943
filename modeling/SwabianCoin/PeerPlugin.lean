import SwabianCoin.P2PConnector

/-!
# A peer

`FcoinPeerPlugin`, the object of a connection. Messages become packets in a send buffer that the
network thread empties as the other side takes the bytes. Only the network thread may put packets
there: a message of any other thread waits in `bufferedMsgs` until the next `tick`. So an answer,
which the network thread sends itself, can overtake what other threads have sent before.

`Accounted` says where each message is that was given to `sendMessage`. The packets of the protocol
underneath that are not messages of this program are left out.
-/

namespace SwabianCoin

/-! ## Packets -/

/-- `sendMessageWithinSingleThread`: the size of the packet, most significant byte first,
`msg_extended`, the number of the extension and the message. -/
def frame (message : Bytes) : Bytes :=
  (leBytes 4 (2 + message.length)).reverse ++ ([20, 117] ++ message)

/-- The next packet, if it is there as a whole. A size is a signed integer, and a negative one ends
the connection. -/
def readPacket (bytes : Bytes) : Option (Bytes × Bytes) :=
  let size := leValue (bytes.take 4).reverse
  if bytes.length < 4 ∨ 2 ^ 31 ≤ size ∨ bytes.length < 4 + size then none
  else some ((bytes.drop 4).take size, bytes.drop (4 + size))

/-- What `on_extended` of the other side hands to its connector, packet after packet. -/
def receivePackets : Nat → Bytes → List Bytes
  | 0, _ => []
  | fuel + 1, bytes =>
    match readPacket bytes with
    | none => []
    | some (20 :: 117 :: message, rest) => message :: receivePackets fuel rest
    | some (_, rest) => receivePackets fuel rest

/-! ## Reading packets -/

theorem length_frame (message : Bytes) : (frame message).length = 6 + message.length := by
  simp only [frame, List.length_append, List.length_reverse, length_leBytes, List.length_cons,
    List.length_nil]
  omega

theorem length_le_length_packets (messages : List Bytes) :
    messages.length ≤ (messages.map frame).flatten.length := by
  induction messages with
  | nil => exact Nat.zero_le _
  | cons message messages ih =>
    rw [List.map_cons, List.flatten_cons, List.length_append, length_frame, List.length_cons]
    omega

theorem size_of_frame {message : Bytes} (h : message.length + 2 < 2 ^ 31) (rest : Bytes) :
    leValue ((frame message ++ rest).take 4).reverse = 2 + message.length := by
  have htake : (frame message ++ rest).take 4 = (leBytes 4 (2 + message.length)).reverse := by
    rw [frame, List.append_assoc]
    exact List.take_left' (by simp)
  rw [htake, List.reverse_reverse, leValue_leBytes]
  exact Nat.mod_eq_of_lt (by omega)

theorem readPacket_frame {message : Bytes} (h : message.length + 2 < 2 ^ 31) (rest : Bytes) :
    readPacket (frame message ++ rest) = some (20 :: 117 :: message, rest) := by
  have hlength := length_frame message
  have hdrop : (frame message ++ rest).drop 4 = (20 :: 117 :: message) ++ rest := by
    rw [frame, List.append_assoc]
    exact List.drop_left' (by simp)
  have hdrop' : (frame message ++ rest).drop (4 + (2 + message.length)) = rest :=
    List.drop_left' (by omega)
  rw [readPacket, size_of_frame h rest, hdrop, hdrop', if_neg (by simp; omega)]
  rw [List.take_left' (by simp; omega)]

theorem readPacket_part {message wire rest rest' : Bytes} (h : message.length + 2 < 2 ^ 31)
    (hwire : wire ++ rest = frame message ++ rest') (hpart : wire.length < (frame message).length) :
    readPacket wire = none := by
  rw [readPacket, if_pos]
  by_cases hshort : wire.length < 4
  · exact Or.inl hshort
  · have hsize : leValue (wire.take 4).reverse = 2 + message.length := by
      rw [← size_of_frame h rest', ← hwire, List.take_append_of_le_length (by omega)]
    rw [length_frame] at hpart
    exact Or.inr (Or.inr (by omega))

/-- **Only whole messages are received, and in their order.** -/
theorem receivePackets_prefix (fuel : Nat) {messages : List Bytes}
    (hshort : ∀ message ∈ messages, message.length + 2 < 2 ^ 31) {wire rest : Bytes}
    (hwire : wire ++ rest = (messages.map frame).flatten) :
    receivePackets fuel wire <+: messages := by
  induction messages generalizing fuel wire with
  | nil =>
    have hnil : wire = [] := (List.append_eq_nil_iff.1 hwire).1
    cases fuel with
    | zero => exact List.nil_prefix
    | succ fuel => simp [receivePackets, readPacket, hnil]
  | cons message messages ih =>
    cases fuel with
    | zero => exact List.nil_prefix
    | succ fuel =>
      rw [List.map_cons, List.flatten_cons] at hwire
      have hmessage := hshort message (List.mem_cons_self ..)
      rcases Nat.lt_or_ge wire.length (frame message).length with hpart | hwhole
      · rw [receivePackets, readPacket_part hmessage hwire hpart]
        exact List.nil_prefix
      · obtain ⟨wire', rfl⟩ : frame message <+: wire :=
          List.prefix_of_prefix_length_le ⟨_, rfl⟩ ⟨rest, hwire⟩ hwhole
        rw [receivePackets, readPacket_frame hmessage]
        rw [List.append_assoc, List.append_cancel_left_eq] at hwire
        exact List.prefix_cons_inj message |>.2
          (ih fuel (fun other hother => hshort other (List.mem_cons_of_mem _ hother)) hwire)

theorem receivePackets_all {fuel : Nat} {messages : List Bytes}
    (hshort : ∀ message ∈ messages, message.length + 2 < 2 ^ 31) (hfuel : messages.length ≤ fuel) :
    receivePackets fuel (messages.map frame).flatten = messages := by
  induction messages generalizing fuel with
  | nil => cases fuel <;> simp [receivePackets, readPacket]
  | cons message messages ih =>
    obtain ⟨fuel, rfl⟩ : ∃ n, fuel = n + 1 := ⟨fuel - 1, by simp at hfuel; omega⟩
    rw [List.map_cons, List.flatten_cons, receivePackets,
      readPacket_frame (hshort message (List.mem_cons_self ..))]
    exact congrArg (message :: ·) (ih (fun other hother =>
      hshort other (List.mem_cons_of_mem _ hother)) (by simpa using hfuel))

/-! ## A peer -/

/-- The threads that send messages. -/
inductive Sender where
  | network
  | cycle
  | baseline
  deriving DecidableEq

/-- The object of a connection with its buffers. -/
structure FcoinPeerPlugin where
  /-- The id, all zero until the handshake. -/
  id : PeerId := []
  /-- Messages of other threads, and which. -/
  bufferedMsgs : List (Sender × Bytes) := []
  sendBuffer : Bytes := []
  /-- For the record: the calls of `sendMessage`, -/
  given : List (Sender × Bytes) := []
  /-- the messages in the order in which they were put into the send buffer, -/
  handed : List (Sender × Bytes) := []
  /-- and what has left the send buffer. -/
  wire : Bytes := []

namespace FcoinPeerPlugin

variable (plugin : FcoinPeerPlugin)

def isConnected : Bool := decide (0 < plugin.id.length) && plugin.id.headD 0 != 0

/-- `sendBufferEmpty`: nothing is left to be transmitted. -/
def sendBufferEmpty : Bool := plugin.sendBuffer.isEmpty && plugin.bufferedMsgs.isEmpty

/-- The message is put into the send buffer as a packet. -/
def sendMessageWithinSingleThread (message : Sender × Bytes) : FcoinPeerPlugin :=
  { plugin with
    sendBuffer := plugin.sendBuffer ++ frame message.2
    handed := plugin.handed ++ [message] }

def sendMessage (sender : Sender) (message : Bytes) : FcoinPeerPlugin :=
  let plugin := { plugin with given := plugin.given ++ [(sender, message)] }
  if sender = .network then plugin.sendMessageWithinSingleThread (sender, message)
  else { plugin with bufferedMsgs := plugin.bufferedMsgs ++ [(sender, message)] }

/-- `tick`: what other threads have left is put into the send buffer. -/
def tick : FcoinPeerPlugin :=
  plugin.bufferedMsgs.foldl sendMessageWithinSingleThread { plugin with bufferedMsgs := [] }

/-- Some bytes leave the send buffer. -/
def transmit (count : Nat) : FcoinPeerPlugin :=
  { plugin with
    sendBuffer := plugin.sendBuffer.drop count
    wire := plugin.wire ++ plugin.sendBuffer.take count }

/-- The number of bytes that have not left yet. -/
def outstanding : Nat :=
  plugin.sendBuffer.length + (plugin.bufferedMsgs.map fun message => frame message.2).flatten.length

/-! ## Where the messages are -/

/-- Whether a message was sent by the network thread. -/
def ofNetwork (message : Sender × Bytes) : Bool := message.1 == .network

/-- Every message that was given is on its way or waits, once; the messages of the network thread
keep their order, and so do the others. -/
structure Accounted : Prop where
  network : plugin.handed.filter ofNetwork = plugin.given.filter ofNetwork
  others : plugin.handed.filter (fun message => !ofNetwork message) ++ plugin.bufferedMsgs =
    plugin.given.filter fun message => !ofNetwork message
  packets : plugin.wire ++ plugin.sendBuffer =
    (plugin.handed.map fun message => frame message.2).flatten

variable {plugin}

theorem Accounted.not_ofNetwork (h : plugin.Accounted) {message : Sender × Bytes}
    (hmem : message ∈ plugin.bufferedMsgs) : ofNetwork message = false := by
  have hother := List.mem_append_right (plugin.handed.filter fun message => !ofNetwork message) hmem
  rw [h.others, List.mem_filter] at hother
  simpa using hother.2

theorem accounted_new : ({} : FcoinPeerPlugin).Accounted := ⟨rfl, rfl, rfl⟩

theorem Accounted.sendMessage (h : plugin.Accounted) (sender : Sender) (message : Bytes) :
    (plugin.sendMessage sender message).Accounted := by
  unfold FcoinPeerPlugin.sendMessage
  by_cases hsender : sender = .network
  · have hof : ofNetwork (sender, message) = true := by simp [ofNetwork, hsender]
    rw [if_pos hsender]
    refine ⟨?_, ?_, ?_⟩
    · simp only [sendMessageWithinSingleThread, List.filter_append, h.network]
    · simpa [sendMessageWithinSingleThread, List.filter_append, hof] using h.others
    · simp [sendMessageWithinSingleThread, ← List.append_assoc, h.packets]
  · have hof : ofNetwork (sender, message) = false := by simp [ofNetwork, hsender]
    rw [if_neg hsender]
    refine ⟨?_, ?_, h.packets⟩
    · simp [List.filter_append, hof, h.network]
    · simp [List.filter_append, hof, ← List.append_assoc, h.others]

/-- Putting the buffered messages into the send buffer, one after the other. -/
theorem foldl_sendMessageWithinSingleThread (messages : List (Sender × Bytes))
    (plugin : FcoinPeerPlugin) :
    messages.foldl sendMessageWithinSingleThread plugin =
      { plugin with
        sendBuffer := plugin.sendBuffer ++ (messages.map fun message => frame message.2).flatten
        handed := plugin.handed ++ messages } := by
  induction messages generalizing plugin with
  | nil => simp
  | cons message messages ih =>
    rw [List.foldl_cons, ih]
    simp [sendMessageWithinSingleThread]

theorem tick_eq (plugin : FcoinPeerPlugin) :
    plugin.tick =
      { plugin with
        bufferedMsgs := []
        sendBuffer := plugin.sendBuffer ++
          (plugin.bufferedMsgs.map fun message => frame message.2).flatten
        handed := plugin.handed ++ plugin.bufferedMsgs } := by
  rw [FcoinPeerPlugin.tick, foldl_sendMessageWithinSingleThread]

theorem Accounted.tick (h : plugin.Accounted) : plugin.tick.Accounted := by
  have hnetwork : plugin.bufferedMsgs.filter ofNetwork = [] :=
    List.filter_eq_nil_iff.2 fun message hmem => by simp [h.not_ofNetwork hmem]
  have hothers : plugin.bufferedMsgs.filter (fun message => !ofNetwork message) =
      plugin.bufferedMsgs :=
    List.filter_eq_self.2 fun message hmem => by simp [h.not_ofNetwork hmem]
  rw [tick_eq]
  refine ⟨?_, ?_, ?_⟩
  · simp only [List.filter_append, hnetwork, List.append_nil, h.network]
  · simp only [List.filter_append, hothers, List.append_nil, h.others]
  · simp only [List.map_append, List.flatten_append, ← List.append_assoc, h.packets]

theorem Accounted.transmit (h : plugin.Accounted) (count : Nat) :
    (plugin.transmit count).Accounted := by
  refine ⟨h.network, h.others, ?_⟩
  simp only [FcoinPeerPlugin.transmit, List.append_assoc, List.take_append_drop, h.packets]

theorem Accounted.others_prefix (h : plugin.Accounted) :
    plugin.handed.filter (fun message => !ofNetwork message) <+:
      plugin.given.filter fun message => !ofNetwork message := ⟨_, h.others⟩

theorem Accounted.given_of_handed (h : plugin.Accounted) {message : Sender × Bytes}
    (hmem : message ∈ plugin.handed) : message ∈ plugin.given := by
  cases hof : ofNetwork message with
  | true =>
    have hin := h.network ▸ List.mem_filter.2 ⟨hmem, hof⟩
    exact (List.mem_filter.1 hin).1
  | false =>
    have hin := h.others_prefix.mem (List.mem_filter.2 ⟨hmem, by simp [hof]⟩)
    exact (List.mem_filter.1 hin).1

theorem Accounted.packets_map (h : plugin.Accounted) :
    plugin.wire ++ plugin.sendBuffer = ((plugin.handed.map Prod.snd).map frame).flatten := by
  rw [h.packets, List.map_map]
  rfl

section Received

variable (h : plugin.Accounted) (hshort : ∀ message ∈ plugin.given, message.2.length + 2 < 2 ^ 31)
include h hshort

theorem Accounted.short_handed :
    ∀ message ∈ plugin.handed.map Prod.snd, message.length + 2 < 2 ^ 31 := by
  intro message hmem
  obtain ⟨sent, hsent, rfl⟩ := List.mem_map.1 hmem
  exact hshort sent (h.given_of_handed hsent)

/-- Nothing is left behind, so all of it has been received. -/
theorem Accounted.receivePackets_of_empty (hempty : plugin.sendBufferEmpty = true) :
    receivePackets plugin.wire.length plugin.wire = plugin.handed.map Prod.snd := by
  have hpackets := h.packets_map
  simp only [sendBufferEmpty, Bool.and_eq_true, List.isEmpty_iff] at hempty
  rw [hempty.1, List.append_nil] at hpackets
  have hcount := length_le_length_packets (plugin.handed.map Prod.snd)
  rw [hpackets]
  exact receivePackets_all (h.short_handed hshort) hcount

/-- **What the other side has received.** -/
theorem Accounted.received :
    ∃ order : List (Sender × Bytes),
      receivePackets plugin.wire.length plugin.wire = order.map Prod.snd ∧
      order.filter ofNetwork <+: plugin.given.filter ofNetwork ∧
      order.filter (fun message => !ofNetwork message) <+:
        plugin.given.filter (fun message => !ofNetwork message) ∧
      (plugin.sendBufferEmpty = true →
        order.filter ofNetwork = plugin.given.filter ofNetwork ∧
        order.filter (fun message => !ofNetwork message) =
          plugin.given.filter fun message => !ofNetwork message) := by
  have hreceived := receivePackets_prefix plugin.wire.length (h.short_handed hshort) h.packets_map
  obtain ⟨order, horder, hmap⟩ : ∃ order, order <+: plugin.handed ∧
      order.map Prod.snd = receivePackets plugin.wire.length plugin.wire :=
    ⟨plugin.handed.take (receivePackets plugin.wire.length plugin.wire).length,
      List.take_prefix _ _, by rw [List.map_take, ← List.prefix_iff_eq_take.1 hreceived]⟩
  refine ⟨order, hmap.symm, h.network ▸ horder.filter _, (horder.filter _).trans h.others_prefix,
    fun hempty => ?_⟩
  have hwhole : order = plugin.handed := by
    refine horder.eq_of_length ?_
    rw [← List.length_map Prod.snd, hmap, h.receivePackets_of_empty hshort hempty,
      List.length_map]
  have hothers := h.others
  simp only [sendBufferEmpty, Bool.and_eq_true, List.isEmpty_iff] at hempty
  rw [hempty.2, List.append_nil] at hothers
  exact ⟨hwhole ▸ h.network, hwhole ▸ hothers⟩

end Received

end FcoinPeerPlugin

end SwabianCoin
