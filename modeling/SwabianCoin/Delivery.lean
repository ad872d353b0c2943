import SwabianCoin.Reset
import SwabianCoin.UpdateStateThread

/-!
# From the queues into the next block

`Collect` takes data values and transactions from their queues, makes sub-blocks out of them and
keeps those that pass `validateSubBlock` in the own block. They are nowhere else then. The next
change to `IntroduceBlock` propagates the own block.

Nothing is lost on the way, except by the limits on the size of a block, as long as the node goes
straight on to `IntroduceBlock`. If it finds itself out of sync after collecting, it fetches the
chain first, and leaving `FetchBlockchain` empties the own block: its sub-blocks hang on a block of
the chain that has been given up.
-/

namespace SwabianCoin

/-! ## Sub-blocks in a block -/

/-- What an entry of a queue becomes. -/
inductive CollectedSubBlock where
  | transaction (subBlock : TransactionSubBlock)
  | creation (subBlock : CreationSubBlock)

/-- The block holds the sub-block under its hash. -/
def CollectionBlock.Holds (block : CollectionBlock) : CollectedSubBlock → Prop
  | .transaction subBlock =>
    (subBlock.header.genericHeader.blockHash, subBlock) ∈ block.transactions
  | .creation subBlock => (subBlock.header.genericHeader.blockHash, subBlock) ∈ block.creations

instance (block : CollectionBlock) : ∀ item, Decidable (block.Holds item)
  | .transaction _ => inferInstanceAs (Decidable (_ ∈ block.transactions.entries))
  | .creation _ => inferInstanceAs (Decidable (_ ∈ block.creations.entries))

theorem CollectionBlock.Holds.congr {block block' : CollectionBlock} {item : CollectedSubBlock}
    (h : block.Holds item) (htransactions : block'.transactions = block.transactions)
    (hcreations : block'.creations = block.creations) : block'.Holds item := by
  cases item with
  | transaction subBlock =>
    unfold Holds
    rw [htransactions]
    exact h
  | creation subBlock =>
    unfold Holds
    rw [hcreations]
    exact h

/-- The limit on the size takes the entry with this key: the map is too large, and no key is
larger. -/
def CutOff {β : Type} (limit : Nat) (map : OrdMap Hash β) (key : Hash) : Prop :=
  limit < map.size ∧ ∀ entry ∈ map.entries, entry.1 ≤ key

instance {β : Type} (limit : Nat) (map : OrdMap Hash β) (key : Hash) :
    Decidable (CutOff limit map key) :=
  inferInstanceAs (Decidable (_ ∧ _))

theorem mem_eraseIfLarger {β : Type} {limit : Nat} {map : OrdMap Hash β} {entry : Hash × β} :
    entry ∈ eraseIfLarger limit map ↔ entry ∈ map ∧ ¬ CutOff limit map entry.1 := by
  unfold eraseIfLarger CutOff
  split_ifs with hlarger
  · rw [OrdMap.mem_eraseLast]
    simp only [hlarger, true_and, not_forall, not_le, exists_prop]
    rfl
  · simp [hlarger]

theorem mem_store_self {β : Type} {limit : Nat} {map : OrdMap Hash β} {key : Hash} {value : β}
    (hcut : ¬ CutOff limit (map.insert key value) key) :
    (key, value) ∈ eraseIfLarger limit (map.insert key value) :=
  mem_eraseIfLarger.2 ⟨OrdMap.mem_insert.2 (Or.inl rfl), hcut⟩

theorem mem_store_of_mem {β : Type} {limit : Nat} {map : OrdMap Hash β} {key : Hash} {value : β}
    {entry : Hash × β} (h : entry ∈ map) (hother : entry.1 = key → entry.2 = value)
    (hcut : ¬ CutOff limit (map.insert key value) entry.1) :
    entry ∈ eraseIfLarger limit (map.insert key value) := by
  refine mem_eraseIfLarger.2 ⟨OrdMap.mem_insert.2 ?_, hcut⟩
  by_cases hkey : entry.1 = key
  · exact Or.inl (Prod.ext hkey (hother hkey))
  · exact Or.inr ⟨hkey, h⟩

/-! ## Collecting -/

namespace BlockchainManager

variable (crypto : CryptoHelper) (m : BlockchainManager)

/-- The creation that the next call of `onCycle` makes out of a found data value, if
`validateSubBlock` accepts it. -/
def acceptedCreation (signature : Signature) : Option CreationSubBlock :=
  match m.foundHashQueue, m.blockchain.getNewestBlock with
  | creationDataValue :: _, some newest =>
    let subBlock := buildCreation crypto newest creationDataValue m.ourPublicKey signature
    if 0 < creationDataValue.length ∧ m.blockchain.validateCreation crypto subBlock = true then
      some subBlock
    else none
  | _, _ => none

/-- The same for a triggered transaction. -/
def acceptedTransaction (signature : Signature) : Option TransactionSubBlock :=
  match m.transactionQueue, m.blockchain.getNewestBlock with
  | (postOwner, fraction) :: _, some newest =>
    let subBlock := buildTransaction crypto newest m.ourPublicKey postOwner fraction signature
    if postOwner.isEmpty = false ∧ m.blockchain.validateTransaction crypto subBlock = true then
      some subBlock
    else none
  | _, _ => none

/-- The creations of the own block with another one. -/
def creationsWith (subBlock : CreationSubBlock) : OrdMap Hash CreationSubBlock :=
  storeCreation m.newBlock.creations subBlock

/-- The transactions of the own block with another one. -/
def transactionsWith (subBlock : TransactionSubBlock) : OrdMap Hash TransactionSubBlock :=
  storeTransaction m.newBlock.transactions subBlock

theorem collectCreation_newBlock (signature : Signature) :
    (m.collectCreation crypto signature).newBlock =
      (m.acceptedCreation crypto signature).elim m.newBlock fun subBlock =>
        { m.newBlock with
          creations := eraseIfLarger (creationsLeft m.blockchain.getMiningState)
            (m.creationsWith subBlock) } := by
  unfold collectCreation acceptedCreation
  cases m.foundHashQueue with
  | nil => rfl
  | cons creationDataValue queue =>
    cases m.blockchain.getNewestBlock with
    | none => rfl
    | some newest =>
      dsimp only
      split_ifs with hlength hvalid hboth hboth hboth
      · rfl
      · exact absurd ⟨hlength, hvalid⟩ hboth
      · exact absurd hboth.2 hvalid
      · rfl
      · exact absurd hboth.1 hlength
      · rfl

theorem collectTransaction_newBlock (signature : Signature) :
    (m.collectTransaction crypto signature).newBlock =
      (m.acceptedTransaction crypto signature).elim m.newBlock fun subBlock =>
        { m.newBlock with
          transactions :=
            eraseIfLarger maxNumTransactions.toNat (m.transactionsWith subBlock) } := by
  unfold collectTransaction acceptedTransaction
  cases m.transactionQueue with
  | nil => rfl
  | cons entry queue =>
    cases m.blockchain.getNewestBlock with
    | none => rfl
    | some newest =>
      simp only [Bool.not_eq_true']
      split_ifs with hkey hvalid hboth hboth hboth
      · rfl
      · exact absurd ⟨hkey, hvalid⟩ hboth
      · exact absurd hboth.2 hvalid
      · rfl
      · exact absurd hboth.1 hkey
      · rfl

/-- The first half of the call leaves the second one alone. -/
theorem acceptedTransaction_collectCreation (creationSignature transactionSignature : Signature) :
    (m.collectCreation crypto creationSignature).acceptedTransaction crypto transactionSignature =
      m.acceptedTransaction crypto transactionSignature := by
  unfold collectCreation
  split
  · dsimp only
    split_ifs <;> rfl
  · rfl

/-- **A call of `onCycle` in `Collect`.** -/
theorem collect_newBlock (creationSignature transactionSignature : Signature) :
    (((m.collectCreation crypto creationSignature).collectTransaction crypto
        transactionSignature).newBlock.creations =
      (m.acceptedCreation crypto creationSignature).elim m.newBlock.creations fun subBlock =>
        eraseIfLarger (creationsLeft m.blockchain.getMiningState) (m.creationsWith subBlock)) ∧
    ((m.collectCreation crypto creationSignature).collectTransaction crypto
        transactionSignature).newBlock.transactions =
      (m.acceptedTransaction crypto transactionSignature).elim m.newBlock.transactions
        fun subBlock => eraseIfLarger maxNumTransactions.toNat (m.transactionsWith subBlock) := by
  rw [collectTransaction_newBlock, acceptedTransaction_collectCreation]
  unfold transactionsWith
  rw [collectCreation_newBlock]
  cases m.acceptedCreation crypto creationSignature <;>
    cases m.acceptedTransaction crypto transactionSignature <;> exact ⟨rfl, rfl⟩

/-- The call makes the sub-block out of an entry it takes from a queue, and it is accepted. -/
def Collects (item : CollectedSubBlock) : ManagerEvent → Prop
  | .onCycle _ creationSignature transactionSignature =>
    m.currentState = some .collect ∧
    match item with
    | .transaction subBlock => m.acceptedTransaction crypto transactionSignature = some subBlock
    | .creation subBlock => m.acceptedCreation crypto creationSignature = some subBlock
  | _ => False

instance : ∀ item event, Decidable (m.Collects crypto item event)
  | .transaction _, .onCycle _ _ _ => inferInstanceAs (Decidable (_ ∧ _ = _))
  | .creation _, .onCycle _ _ _ => inferInstanceAs (Decidable (_ ∧ _ = _))
  | _, .advance _ => inferInstanceAs (Decidable False)
  | _, .collectionBlockReceived _ _ _ _ => inferInstanceAs (Decidable False)
  | _, .foundHash _ => inferInstanceAs (Decidable False)
  | _, .triggerTransaction _ _ => inferInstanceAs (Decidable False)

/-- The call stores a sub-block of the kind of `item`, of which `P` or `Q` holds. -/
def StoresWith (item : CollectedSubBlock) (P : TransactionSubBlock → TransactionSubBlock → Prop)
    (Q : CreationSubBlock → CreationSubBlock → Prop) : ManagerEvent → Prop
  | .onCycle _ creationSignature transactionSignature =>
    m.currentState = some .collect ∧
    match item with
    | .transaction subBlock =>
      ∃ added ∈ m.acceptedTransaction crypto transactionSignature, P subBlock added
    | .creation subBlock => ∃ added ∈ m.acceptedCreation crypto creationSignature, Q subBlock added
  | _ => False

instance {P : TransactionSubBlock → TransactionSubBlock → Prop}
    {Q : CreationSubBlock → CreationSubBlock → Prop} [DecidableRel P] [DecidableRel Q] :
    ∀ item event, Decidable (m.StoresWith crypto item P Q event)
  | .transaction _, .onCycle _ _ _ => inferInstanceAs (Decidable (_ ∧ ∃ added ∈ _, _))
  | .creation _, .onCycle _ _ _ => inferInstanceAs (Decidable (_ ∧ ∃ added ∈ _, _))
  | _, .advance _ => inferInstanceAs (Decidable False)
  | _, .collectionBlockReceived _ _ _ _ => inferInstanceAs (Decidable False)
  | _, .foundHash _ => inferInstanceAs (Decidable False)
  | _, .triggerTransaction _ _ => inferInstanceAs (Decidable False)

/-- The call stores a sub-block, and the limit on the size takes `item`. -/
def CutsOff (item : CollectedSubBlock) : ManagerEvent → Prop :=
  m.StoresWith crypto item
    (fun subBlock added => CutOff maxNumTransactions.toNat (m.transactionsWith added)
      subBlock.header.genericHeader.blockHash)
    (fun subBlock added => CutOff (creationsLeft m.blockchain.getMiningState)
      (m.creationsWith added) subBlock.header.genericHeader.blockHash)

/-- The call stores another sub-block with the hash of `item`. -/
def Collides (item : CollectedSubBlock) : ManagerEvent → Prop :=
  m.StoresWith crypto item
    (fun subBlock added => subBlock.header.genericHeader.blockHash =
      added.header.genericHeader.blockHash ∧ subBlock ≠ added)
    (fun subBlock added => subBlock.header.genericHeader.blockHash =
      added.header.genericHeader.blockHash ∧ subBlock ≠ added)

instance (item : CollectedSubBlock) (event : ManagerEvent) :
    Decidable (m.CutsOff crypto item event) :=
  inferInstanceAs (Decidable (m.StoresWith crypto item _ _ event))

instance (item : CollectedSubBlock) (event : ManagerEvent) :
    Decidable (m.Collides crypto item event) :=
  inferInstanceAs (Decidable (m.StoresWith crypto item _ _ event))

variable {crypto m} {item : CollectedSubBlock} {event : ManagerEvent}

theorem step_onCycle_collect (hstate : m.currentState = some .collect) (now : BlockchainTime)
    (creationSignature transactionSignature : Signature) :
    m.step crypto (.onCycle now creationSignature transactionSignature) =
      (m.collectCreation crypto creationSignature).collectTransaction crypto
        transactionSignature := by
  simp only [step, act, onCycle, hstate]

theorem Collects.currentState (h : m.Collects crypto item event) :
    m.currentState = some .collect := by
  cases event with
  | onCycle now creationSignature transactionSignature => exact h.1
  | advance now => cases h
  | collectionBlockReceived peer block reply now => cases h
  | foundHash data => cases h
  | triggerTransaction receiver fraction => cases h

/-- **What is collected is in the own block.** -/
theorem Collects.holds (h : m.Collects crypto item event) (hcut : ¬ m.CutsOff crypto item event) :
    (m.step crypto event).newBlock.Holds item := by
  cases event with
  | onCycle now creationSignature transactionSignature =>
    obtain ⟨hstate, hitem⟩ := h
    obtain ⟨hcreations, htransactions⟩ :=
      m.collect_newBlock crypto creationSignature transactionSignature
    rw [step_onCycle_collect hstate]
    cases item with
    | transaction subBlock =>
      unfold CollectionBlock.Holds
      rw [htransactions, hitem]
      exact mem_store_self fun hcutOff => hcut ⟨hstate, subBlock, hitem, hcutOff⟩
    | creation subBlock =>
      unfold CollectionBlock.Holds
      rw [hcreations, hitem]
      exact mem_store_self fun hcutOff => hcut ⟨hstate, subBlock, hitem, hcutOff⟩
  | advance now => cases h
  | collectionBlockReceived peer block reply now => cases h
  | foundHash data => cases h
  | triggerTransaction receiver fraction => cases h

/-- **What the own block holds stays there while the node collects.** -/
theorem holds_step (h : m.newBlock.Holds item) (hstate : m.currentState = some .collect)
    (hstays : event.StaysInState) (hcut : ¬ m.CutsOff crypto item event)
    (hhash : ¬ m.Collides crypto item event) : (m.step crypto event).newBlock.Holds item := by
  cases event with
  | advance now => exact absurd hstays id
  | onCycle now creationSignature transactionSignature =>
    obtain ⟨hcreations, htransactions⟩ :=
      m.collect_newBlock crypto creationSignature transactionSignature
    rw [step_onCycle_collect hstate]
    cases item with
    | transaction subBlock =>
      unfold CollectionBlock.Holds
      rw [htransactions]
      cases hadded : m.acceptedTransaction crypto transactionSignature with
      | none => exact h
      | some added =>
        -- It stays unless it is cut off or replaced under its key.
        refine mem_store_of_mem h (fun hsame => ?_) fun hcutOff =>
          hcut ⟨hstate, added, hadded, hcutOff⟩
        by_contra hne
        exact hhash ⟨hstate, added, hadded, hsame, hne⟩
    | creation subBlock =>
      unfold CollectionBlock.Holds
      rw [hcreations]
      cases hadded : m.acceptedCreation crypto creationSignature with
      | none => exact h
      | some added =>
        refine mem_store_of_mem h (fun hsame => ?_) fun hcutOff =>
          hcut ⟨hstate, added, hadded, hcutOff⟩
        by_contra hne
        exact hhash ⟨hstate, added, hadded, hsame, hne⟩
  | collectionBlockReceived peer block reply now =>
    have hsame : SameNegotiation m
        (m.step crypto (.collectionBlockReceived peer block reply now)) :=
      step_outside_same (by simp [hstate]) peer block reply now
    rw [hsame.newBlock]
    exact h
  | foundHash data => exact h
  | triggerTransaction receiver fraction => exact h

end BlockchainManager

/-- Only an event of the regular cycle reaches the own block. -/
theorem FetchingNode.nodeStep_newBlock (crypto : CryptoHelper) (node : FetchingNode)
    {event : NodeEvent} (h : event.keepsState = true) :
    (∃ managerEvent : ManagerEvent, event = .manager managerEvent ∧ managerEvent.StaysInState ∧
      node.nodeStep crypto event = { node with base := node.base.step crypto managerEvent }) ∨
    (node.nodeStep crypto event).base.newBlock = node.base.newBlock := by
  rcases node.nodeStep_keepsState_cases crypto h with
    ⟨fetchEvent, -, heq, henter, hexit, hinside⟩ | hmanager
  · right
    rw [heq]
    rcases node.step_own crypto henter hinside with hsame | ⟨now, hleaves, -⟩
    · exact hsame.newBlock
    · exact absurd hleaves (hexit now)
  · exact Or.inl hmanager

theorem FetchingNode.nodeStep_newBlock_of_none (crypto : CryptoHelper) (node : FetchingNode)
    {event : NodeEvent} (h : event.keepsState = true) (hnone : node.base.currentState = none) :
    (node.nodeStep crypto event).base.newBlock = node.base.newBlock := by
  rcases node.nodeStep_newBlock crypto h with ⟨managerEvent, -, hstays, heq⟩ | hsame
  · rw [heq]
    rcases BlockchainManager.step_stays_cases crypto hstays with
      hsame | ⟨hstate, -⟩ | ⟨hstate, -⟩ | ⟨hstate, -⟩
    · exact hsame.newBlock
    · rw [hnone] at hstate
      cases hstate
    · rw [hnone] at hstate
      cases hstate
    · rw [hnone] at hstate
      cases hstate
  · exact hsame

/-! ## Changes of state -/

namespace UpdateStateThread

variable (crypto : CryptoHelper) (t : UpdateStateThread)

/-- What the event is for the regular cycle. -/
def managerEvent : ThreadEvent → Option ManagerEvent
  | .node event =>
    match event t.now with
    | .manager managerEvent => if t.allows (.manager managerEvent) then some managerEvent else none
    | _ => none
  | _ => none

/-- `Collect::onCycle` makes the sub-block out of what it takes from a queue, and `validateSubBlock`
accepts it. -/
def Collects (item : CollectedSubBlock) (event : ThreadEvent) : Prop :=
  ∃ managerEvent ∈ t.managerEvent event, t.node.base.Collects crypto item managerEvent

/-- `Collect::onCycle` cuts the sub-block off because the own block is too large. -/
def CutsOff (item : CollectedSubBlock) (event : ThreadEvent) : Prop :=
  ∃ managerEvent ∈ t.managerEvent event, t.node.base.CutsOff crypto item managerEvent

/-- `Collect::onCycle` stores another sub-block with the same hash. -/
def Collides (item : CollectedSubBlock) (event : ThreadEvent) : Prop :=
  ∃ managerEvent ∈ t.managerEvent event, t.node.base.Collides crypto item managerEvent

instance (item : CollectedSubBlock) (event : ThreadEvent) :
    Decidable (t.Collects crypto item event) :=
  inferInstanceAs (Decidable (∃ managerEvent ∈ t.managerEvent event, _))

instance (item : CollectedSubBlock) (event : ThreadEvent) :
    Decidable (t.CutsOff crypto item event) :=
  inferInstanceAs (Decidable (∃ managerEvent ∈ t.managerEvent event, _))

instance (item : CollectedSubBlock) (event : ThreadEvent) :
    Decidable (t.Collides crypto item event) :=
  inferInstanceAs (Decidable (∃ managerEvent ∈ t.managerEvent event, _))

/-- The node is found out of sync after collecting, or a change of state took too long. -/
def Resynchronises : ThreadEvent → Prop
  | .step _ => t.position = .collecting ∧ t.Due ∧
      (t.node.base.outOfSyncDetector.isOutOfSync || t.timeViolationDetected) = true
  | _ => False

instance : DecidablePred t.Resynchronises
  | .step _ => inferInstanceAs (Decidable (_ ∧ _ ∧ _ = _))
  | .stop => inferInstanceAs (Decidable False)
  | .node _ => inferInstanceAs (Decidable False)
  | .pauseMiner => inferInstanceAs (Decidable False)
  | .resumeMiner => inferInstanceAs (Decidable False)
  | .clock _ => inferInstanceAs (Decidable False)

/-- What the change to `IntroduceBlock` does to the outside. -/
def introduced : List Effect := (t.node.base.setState crypto .introduceBlock t.now).2

variable {crypto t} {item : CollectedSubBlock} {event : ThreadEvent}

/-- **The change to `IntroduceBlock`** propagates the own block. -/
theorem introduced_eq (h : t.PositionOk) (henters : t.EntersIntroduceBlock event) :
    ∃ block, t.introduced crypto = [.propagateBlock block] ∧
      block.transactions = t.node.base.newBlock.transactions ∧
      block.creations = t.node.base.newBlock.creations := by
  obtain ⟨slow, rfl⟩ := henters.isStep
  obtain ⟨-, hstate⟩ := h.mayIntroduce henters
  refine ⟨(t.node.base.enterState crypto .introduceBlock t.now).1.newBlock, ?_, ?_⟩
  · unfold introduced
    rw [BlockchainManager.setState_introduceBlock crypto t.now (hstate.imp And.left And.left)]
    rfl
  · simp only [BlockchainManager.enterState, BlockchainManager.enterIntroduceBlock]
    split <;> exact ⟨rfl, rfl⟩

/-- The sub-block is on its way: the node is in `Collect` or about to leave it, and the own block
holds the sub-block. -/
structure OnTheWay (item : CollectedSubBlock) (t : UpdateStateThread) : Prop where
  position : t.position = .collecting ∨ t.position = .loopHead
  currentState : t.node.base.currentState = some .collect
  holds : t.node.base.newBlock.Holds item

/-- The chain is being fetched, and the own block is emptied before the next one is introduced. -/
def Fetching (t : UpdateStateThread) : Prop :=
  t.position = .fetching ∨ t.position = .loopHead ∧ t.node.state.running = true ∨
    t.position = .leavingFetchBlockchain ∧ t.node.base.newBlock = {}

theorem act_of_managerEvent (crypto : CryptoHelper) {managerEvent : ManagerEvent}
    (h : managerEvent ∈ t.managerEvent event) :
    t.act crypto event =
      { t with node := t.node.nodeStep crypto (.manager managerEvent) } ∧
      t.allows (.manager managerEvent) = true := by
  unfold UpdateStateThread.managerEvent at h
  split at h
  · next nodeEvent =>
    split at h
    · next other hevent =>
      split_ifs at h with hallows
      · cases h
        exact ⟨by simp only [act, hevent, if_pos hallows], hallows⟩
      · cases h
    · cases h
  · cases h

/-- A call of `onCycle` that collects the sub-block puts it on its way. -/
theorem Collects.onTheWay (hok : t.PositionOk) (h : t.Collects crypto item event)
    (hcut : ¬ t.CutsOff crypto item event) : OnTheWay item (t.act crypto event) := by
  obtain ⟨managerEvent, hmanager, hcollects⟩ := h
  obtain ⟨hact, hallows⟩ := act_of_managerEvent crypto hmanager
  have hstate : t.node.base.currentState = some .collect := hcollects.currentState
  have hkeeps := (Bool.and_eq_true_iff.1 hallows).1
  have hstays : managerEvent.StaysInState := of_decide_eq_true hkeeps
  have hnode : t.node.nodeStep crypto (.manager managerEvent) = _ := if_pos (Or.inr hstays)
  rw [hact, hnode]
  refine ⟨hok.position_of_collect hstate, ?_, ?_⟩
  · exact (t.node.base.step_currentState crypto hstays).trans hstate
  · exact hcollects.holds fun hcutsOff => hcut ⟨managerEvent, hmanager, hcutsOff⟩

namespace OnTheWay

theorem actNode (h : OnTheWay item t) (event : BlockchainTime → NodeEvent)
    (hcut : ¬ t.CutsOff crypto item (.node event))
    (hhash : ¬ t.Collides crypto item (.node event)) :
    OnTheWay item (t.act crypto (.node event)) := by
  simp only [UpdateStateThread.act]
  split_ifs with hallows
  · have hkeeps := (Bool.and_eq_true_iff.1 hallows).1
    refine ⟨h.position, (t.node.nodeStep_sameState crypto hkeeps).currentState.trans h.currentState,
      ?_⟩
    rcases t.node.nodeStep_newBlock crypto hkeeps with ⟨managerEvent, hevent, hstays, heq⟩ | hsame
    · have hmanager : managerEvent ∈ t.managerEvent (.node event) := by
        rw [hevent] at hallows
        simp [UpdateStateThread.managerEvent, hevent, hallows]
      dsimp only
      rw [heq]
      exact BlockchainManager.holds_step h.holds h.currentState hstays
        (fun hcutsOff => hcut ⟨managerEvent, hmanager, hcutsOff⟩)
        fun hcollides => hhash ⟨managerEvent, hmanager, hcollides⟩
    · dsimp only
      rw [hsame]
      exact h.holds
  · exact h

/-- **A step of the thread**, as long as no block is introduced. -/
theorem threadStep (h : OnTheWay item t) (hok : t.PositionOk) (slow : Bool)
    (hnot : ¬ t.EntersIntroduceBlock (.step slow)) :
    (¬ t.Resynchronises (.step slow) → OnTheWay item (t.threadStep crypto slow)) ∧
      (t.Resynchronises (.step slow) → (t.threadStep crypto slow).Fetching) := by
  rcases h.position with hposition | hposition
  · have hstep : t.threadStep crypto slow = if t.Due then t.afterCollect crypto else t := by
      simp only [UpdateStateThread.threadStep, hposition]
    rw [hstep]
    unfold afterCollect
    constructor
    · intro hsync
      split_ifs with hdue hout
      · exact absurd ⟨hposition, hdue, hout⟩ hsync
      · exact ⟨Or.inr rfl, h.currentState, h.holds⟩
      · exact h
    · intro hresync
      rw [if_pos hresync.2.1, if_pos hresync.2.2]
      exact Or.inl rfl
  · -- At the head of the loop the next step is the change to `IntroduceBlock`.
    have hleft : t.node.Left := by
      unfold PositionOk at hok
      rw [hposition, h.currentState] at hok
      simpa using hok.elim (fun hnone => by simp at hnone) And.left
    exact absurd (Or.inl ⟨hposition, hleft.1⟩) hnot

/-- **One event.** -/
theorem act (h : OnTheWay item t) (hok : t.PositionOk) (hnot : ¬ t.EntersIntroduceBlock event)
    (hcut : ¬ t.CutsOff crypto item event) (hhash : ¬ t.Collides crypto item event) :
    (¬ t.Resynchronises event →
      OnTheWay item (t.act crypto event) ∨ (t.act crypto event).position = .stopped) ∧
    (t.Resynchronises event → (t.act crypto event).Fetching) := by
  cases event with
  | step slow =>
    obtain ⟨hon, hfetching⟩ := h.threadStep hok slow hnot
    exact ⟨fun hsync => Or.inl (hon hsync), hfetching⟩
  | stop =>
    refine ⟨fun _ => ?_, False.elim⟩
    simp only [UpdateStateThread.act]
    split_ifs
    · exact Or.inr (t.stopStep_position crypto)
    · exact Or.inl h
  | node event => exact ⟨fun _ => Or.inl (h.actNode event hcut hhash), False.elim⟩
  | pauseMiner => exact ⟨fun _ => Or.inl ⟨h.position, h.currentState, h.holds⟩, False.elim⟩
  | resumeMiner => exact ⟨fun _ => Or.inl ⟨h.position, h.currentState, h.holds⟩, False.elim⟩
  | clock now => exact ⟨fun _ => Or.inl ⟨h.position, h.currentState, h.holds⟩, False.elim⟩

end OnTheWay

/-- **One event** while the chain is fetched. -/
theorem Fetching.act (h : t.Fetching) (hok : t.PositionOk) (hnot : ¬ t.EntersIntroduceBlock event) :
    (t.act crypto event).Fetching ∨ (t.act crypto event).position = .stopped := by
  cases event with
  | step slow =>
    left
    have hsteps := t.steps_threadStep crypto slow
    simp only [UpdateStateThread.act]
    generalize t.threadStep crypto slow = next at hsteps ⊢
    unfold Fetching at h
    cases hsteps with
    | waits => exact h
    | leaveFetchBlockchain hposition hrunning => exact Or.inr (Or.inr ⟨rfl, rfl⟩)
    | introduceBlock hat => exact absurd hat hnot
    -- The flag is still set; the own block is emptied when the state is left.
    | fetched hposition =>
      unfold PositionOk at hok
      rw [hposition] at hok
      exact Or.inr (Or.inl ⟨rfl, hok.1⟩)
    | fetchInitially hposition => simp [hposition] at h
    | skipFetching hposition => simp [hposition] at h
    | fetchedInitially hposition => simp [hposition] at h
    | start hposition => simp [hposition] at h
    | introduceBaseline hposition hdue hgrid => simp [hposition] at h
    | collectAfterBlock hposition hdue hgrid => simp [hposition] at h
    | collectAfterBaseline hposition hdue => simp [hposition] at h
    | resynchronise hposition hdue => simp [hposition] at h
    | again hposition hdue hsync => simp [hposition] at h
  | stop =>
    simp only [UpdateStateThread.act]
    split_ifs
    · exact Or.inr (t.stopStep_position crypto)
    · exact Or.inl h
  | node event =>
    left
    simp only [UpdateStateThread.act]
    split_ifs with hallows
    · have hkeeps := (Bool.and_eq_true_iff.1 hallows).1
      have hsame := t.node.nodeStep_sameState crypto hkeeps
      refine h.imp_right (Or.imp (And.imp_right fun hrunning => ?_) fun hleaving => ?_)
      · exact hsame.running.trans hrunning
      · obtain ⟨hposition, hempty⟩ := hleaving
        unfold PositionOk at hok
        rw [hposition] at hok
        exact ⟨hposition, (t.node.nodeStep_newBlock_of_none crypto hkeeps hok.2.1).trans hempty⟩
    · exact h
  | pauseMiner => exact Or.inl h
  | resumeMiner => exact Or.inl h
  | clock now => exact Or.inl h

theorem act_stopped (h : t.position = .stopped) (event : ThreadEvent) :
    (t.act crypto event).position = .stopped := by
  cases event with
  | step slow => simp [act, threadStep, h]
  | stop => simp [act, stopsHere, ThreadPosition.cycles, h]
  | node event =>
    simp only [act]
    split_ifs <;> exact h
  | pauseMiner => exact h
  | resumeMiner => exact h
  | clock now => exact h

theorem not_resynchronises_of_stopped (h : t.position = .stopped) : ¬ t.Resynchronises event := by
  cases event with
  | step slow => simp [Resynchronises, h]
  | stop => exact id
  | node event => exact id
  | pauseMiner => exact id
  | resumeMiner => exact id
  | clock now => exact id

/-- Between the call that collects the sub-block and the next block: no block is introduced, and the
sub-block is neither cut off nor replaced by another one with its hash. -/
structure Between (crypto : CryptoHelper) (item : CollectedSubBlock) (t : UpdateStateThread)
    (event : ThreadEvent) : Prop where
  notEnters : ¬ t.EntersIntroduceBlock event
  notCutsOff : ¬ t.CutsOff crypto item event
  notCollides : ¬ t.Collides crypto item event

instance (item : CollectedSubBlock) (t : UpdateStateThread) (event : ThreadEvent) :
    Decidable (Between crypto item t event) :=
  decidable_of_iff (¬ t.EntersIntroduceBlock event ∧ ¬ t.CutsOff crypto item event ∧
    ¬ t.Collides crypto item event)
    ⟨fun h => ⟨h.1, h.2.1, h.2.2⟩, fun h => ⟨h.notEnters, h.notCutsOff, h.notCollides⟩⟩

/-- **While no block is introduced**, the sub-block is on its way until the node is resynchronised,
and then the chain is fetched, unless the thread ends. -/
theorem onTheWay_or_fetching {events : List ThreadEvent} (hok : t.PositionOk)
    (h : OnTheWay item t) (hbetween : Run.AllSteps (act crypto) (Between crypto item) t events) :
    Run.AllSteps (act crypto) (fun t event => ¬ t.Resynchronises event) t events ∧
        (Run.exec (act crypto) t events).PositionOk ∧
        (OnTheWay item (Run.exec (act crypto) t events) ∨
          (Run.exec (act crypto) t events).position = .stopped) ∨
      ¬ Run.AllSteps (act crypto) (fun t event => ¬ t.Resynchronises event) t events ∧
        (Run.exec (act crypto) t events).PositionOk ∧
        ((Run.exec (act crypto) t events).Fetching ∨
          (Run.exec (act crypto) t events).position = .stopped) := by
  refine Run.AllSteps.until
    (I := fun t => t.PositionOk ∧ (OnTheWay item t ∨ t.position = .stopped))
    (J := fun t => t.PositionOk ∧ (t.Fetching ∨ t.position = .stopped)) ?_ ?_ ?_
    ⟨hok, Or.inl h⟩ hbetween
  · rintro t event ⟨hok, h | hstopped⟩ ⟨hnot, hcut, hhash⟩ hsync
    · exact ⟨hok.act event, (h.act hok hnot hcut hhash).1 hsync⟩
    · exact ⟨hok.act event, Or.inr (act_stopped hstopped event)⟩
  · rintro t event ⟨hok, h | hstopped⟩ ⟨hnot, hcut, hhash⟩ hresync
    · exact ⟨hok.act event, Or.inl ((h.act hok hnot hcut hhash).2 hresync)⟩
    · exact absurd hresync (not_resynchronises_of_stopped hstopped)
  · rintro t event ⟨hok, h | hstopped⟩ ⟨hnot, -, -⟩
    · exact ⟨hok.act event, h.act hok hnot⟩
    · exact ⟨hok.act event, Or.inr (act_stopped hstopped event)⟩

theorem EntersIntroduceBlock.not_stopped (h : t.EntersIntroduceBlock event) :
    t.position ≠ .stopped := by
  obtain ⟨slow, rfl⟩ := h.isStep
  rcases h with ⟨hposition, -⟩ | ⟨hposition, -⟩ <;> simp [hposition]

/-- After the chain has been fetched, the next block is introduced empty. -/
theorem Fetching.newBlock (h : t.Fetching) (henters : t.EntersIntroduceBlock event) :
    t.node.base.newBlock = {} := by
  obtain ⟨slow, rfl⟩ := henters.isStep
  rcases h with hfetching | ⟨hhead, hrunning⟩ | ⟨hleaving, hempty⟩
  · rcases henters with ⟨hposition, -⟩ | ⟨hposition, -⟩ <;>
      exact absurd (hposition.symm.trans hfetching) (by simp)
  · rcases henters with ⟨-, hnot⟩ | ⟨hposition, -⟩
    · rw [hrunning] at hnot
      cases hnot
    · exact absurd (hposition.symm.trans hhead) (by simp)
  · exact hempty

/-- **What is collected gets into the next block**, exactly if the node is not resynchronised before
it is introduced. -/
theorem propagated_iff_not_resynchronised (crypto : CryptoHelper) (ourPublicKey : PublicKeyPEM)
    (blockchain : Blockchain) (initialFetch : Bool) (now : BlockchainTime)
    (before between : List ThreadEvent) (collect enter : ThreadEvent) (item : CollectedSubBlock)
    (t t' t'' : UpdateStateThread)
    (ht : t = Run.exec (act crypto) (construct ourPublicKey blockchain initialFetch now) before)
    (ht' : t' = t.act crypto collect) (ht'' : t'' = Run.exec (act crypto) t' between)
    (hcollects : t.Collects crypto item collect) (hcut : ¬ t.CutsOff crypto item collect)
    (hbetween : Run.AllSteps (act crypto) (Between crypto item) t' between)
    (henters : t''.EntersIntroduceBlock enter) :
    ∃ block, t''.introduced crypto = [.propagateBlock block] ∧
      (block.Holds item ↔
        Run.AllSteps (act crypto) (fun t event => ¬ t.Resynchronises event) t' between) := by
  have hok : t.PositionOk := by
    rw [ht]
    exact (Run.AllStates.of_steps (P := fun _ _ => True) (fun _ event h _ => h.act event)
      (PositionOk.construct ourPublicKey blockchain initialFetch now)
      (Run.AllSteps.of_forall_mem fun _ _ _ => trivial)).last
  have hon : OnTheWay item t' := by
    rw [ht']
    exact hcollects.onTheWay hok hcut
  have hok' : t'.PositionOk := by
    rw [ht']
    exact hok.act collect
  have hruns := onTheWay_or_fetching hok' hon hbetween
  rw [← ht''] at hruns
  -- Either it is still on its way when the block is introduced, or the block begins empty.
  rcases hruns with ⟨hsync, hok'', hlast⟩ | ⟨hresync, hok'', hlast⟩
  · have hholds := (hlast.resolve_right henters.not_stopped).holds
    obtain ⟨block, hpropagated, htransactions, hcreations⟩ := introduced_eq hok'' henters
    exact ⟨block, hpropagated, iff_of_true (hholds.congr htransactions hcreations) hsync⟩
  · have hempty := (hlast.resolve_right henters.not_stopped).newBlock henters
    obtain ⟨block, hpropagated, htransactions, hcreations⟩ := introduced_eq hok'' henters
    rw [hempty] at htransactions hcreations
    refine ⟨block, hpropagated, iff_of_false (fun hholds => ?_) hresync⟩
    cases item with
    | transaction subBlock =>
      unfold CollectionBlock.Holds at hholds
      rw [htransactions] at hholds
      exact OrdMap.not_mem_empty _ hholds
    | creation subBlock =>
      unfold CollectionBlock.Holds at hholds
      rw [hcreations] at hholds
      exact OrdMap.not_mem_empty _ hholds

end UpdateStateThread

namespace Sample

/-- The begin of the cycle of the id `1`. -/
def cycle1 : BlockchainTime := 1547155440000

/-- A manager over an empty chain introduces an empty block and goes on to `Collect`, where a data
value has been found. `slow` says that this change takes too long. -/
def foundDataValue (slow : Bool) : List ThreadEvent :=
  [.step false, .step false, .step false, .clock (cycle1 + 120000), .step slow,
    .node fun _ => .manager (.foundHash (dataValueBeginning {} keyC ++ [1]))]

/-- The data value becomes a creation on top of the empty block. -/
def collectDataValue : ThreadEvent :=
  .node fun now => .manager (.onCycle now keyC.shortString [])

def foundCreation : CollectedSubBlock :=
  .creation (coin (.collection (block root [] [])) keyC [1])

/-- A manager over an empty chain. -/
def startAt1 : UpdateStateThread :=
  .construct keyC (.construct .sample ∅) false (cycle1 + 5000)

/-- The node goes straight on to the next block. -/
def straightOn : List ThreadEvent := [.clock (cycle1 + 150000), .step false]

/-- The node fetches the chain before. -/
def fetchBefore : List ThreadEvent :=
  .clock (cycle1 + 150000) ::
    fetchChain (Blockchain.emptyBaseline .sample) [block root [] []] ++ leaveFetching.dropLast

end Sample

/-- A found data value gets into the next block. -/
theorem foundCreation_propagated :
    ∃ block, (Run.exec (UpdateStateThread.act .sample)
        (UpdateStateThread.act .sample (Run.exec (UpdateStateThread.act .sample) Sample.startAt1
          (Sample.foundDataValue false)) Sample.collectDataValue)
        Sample.straightOn).introduced .sample = [.propagateBlock block] ∧
      block.Holds Sample.foundCreation := by
  obtain ⟨block, hpropagated, hiff⟩ := UpdateStateThread.propagated_iff_not_resynchronised .sample
    Sample.keyC (.construct .sample ∅) false (Sample.cycle1 + 5000) (Sample.foundDataValue false)
    Sample.straightOn Sample.collectDataValue (.step false) Sample.foundCreation _ _ _ rfl rfl rfl
    (by decide +kernel) (by decide +kernel) (by decide +kernel) (by decide +kernel)
  exact ⟨block, hpropagated, hiff.2 (by decide +kernel)⟩

/-- After a change that took too long the chain is fetched, and the next block is empty. -/
theorem foundCreation_lost :
    ¬ ∀ (crypto : CryptoHelper) (ourPublicKey : PublicKeyPEM) (blockchain : Blockchain)
        (initialFetch : Bool) (now : BlockchainTime) (before between : List ThreadEvent)
        (collect enter : ThreadEvent) (item : CollectedSubBlock) (t t' t'' : UpdateStateThread),
      t = Run.exec (UpdateStateThread.act crypto)
        (.construct ourPublicKey blockchain initialFetch now) before →
      t' = t.act crypto collect → t'' = Run.exec (UpdateStateThread.act crypto) t' between →
      t.Collects crypto item collect → ¬ t.CutsOff crypto item collect →
      Run.AllSteps (UpdateStateThread.act crypto) (UpdateStateThread.Between crypto item) t'
        between →
      t''.EntersIntroduceBlock enter →
      ∃ block, t''.introduced crypto = [.propagateBlock block] ∧ block.Holds item := by
  intro h
  have hlost {t : UpdateStateThread} (ht : ((t.introduced .sample).any fun effect =>
      match effect with
      | .propagateBlock block => decide (block.Holds Sample.foundCreation)
      | _ => false) = false) :
      ¬ ∃ block, t.introduced .sample = [.propagateBlock block] ∧
        block.Holds Sample.foundCreation := by
    rintro ⟨block, hpropagated, hholds⟩
    rw [hpropagated] at ht
    simp [hholds] at ht
  exact hlost (by decide +kernel) (h .sample Sample.keyC (.construct .sample ∅) false
    (Sample.cycle1 + 5000) (Sample.foundDataValue true) Sample.fetchBefore Sample.collectDataValue
    (.step false) Sample.foundCreation _ _ _ rfl rfl rfl (by decide +kernel) (by decide +kernel)
    (by decide +kernel) (by decide +kernel))

end SwabianCoin
