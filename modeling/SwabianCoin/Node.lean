import SwabianCoin.FetchBlockchain

/-!
# A whole node

The two halves of a node in one machine: the regular cycle of `BlockchainManager` and the state
`FetchBlockchain` with its thread. While the chain is fetched the cycle is in no state of its own.
The next state is entered when `onExit` has returned, that is when the thread has ended.
`updateStateThread` fetches at the beginning and when it finds itself out of sync after
collecting; otherwise it goes round in the regular cycle.
-/

namespace SwabianCoin

/-- Something happens to a node. -/
inductive NodeEvent where
  /-- The cycle moves on to `FetchBlockchain`. -/
  | enterFetchBlockchain
  /-- Something happens in `FetchBlockchain` or to the cache. -/
  | fetch (event : FetchEvent)
  /-- Something happens in the regular cycle. -/
  | manager (event : ManagerEvent)

namespace FetchingNode

variable (crypto : CryptoHelper) (node : FetchingNode)

/-- A node as it is constructed, over whatever its folder holds. -/
def construct (ourPublicKey : PublicKeyPEM) (before : Blockchain) : FetchingNode where
  base := { ourPublicKey, blockchain := before.initEmptyChain crypto }

/-- `fetchBlockchain` may be called now. -/
def MayFetch : Prop :=
  node.Left ∧ (node.base.currentState = none ∨ node.base.currentState = some .collect)

instance : Decidable node.MayFetch := inferInstanceAs (Decidable (_ ∧ _))

/-- `setState` with `FetchBlockchain`. Leaving `Collect` does nothing. -/
def enterFetchBlockchain : FetchingNode :=
  ({ node with base := { node.base with currentState := none } } : FetchingNode).onEnter crypto

/-- One event of the node. Entering `FetchBlockchain` and what happens outside of it have their
own events here. -/
def nodeStep : NodeEvent → FetchingNode
  | .enterFetchBlockchain => if node.MayFetch then node.enterFetchBlockchain crypto else node
  | .fetch .onEnter => node
  | .fetch (.elsewhere _) => node
  | .fetch event => node.step crypto event
  | .manager event =>
    if node.Left ∨ event.StaysInState then { node with base := node.base.step crypto event }
    else node

/-- What an event makes the node do. -/
def nodeEffects : NodeEvent → List FetchEffect
  | .enterFetchBlockchain => []
  | .fetch .onEnter => []
  | .fetch (.elsewhere _) => []
  | .fetch event => (node.act crypto event).2
  | .manager event =>
    if node.Left ∨ event.StaysInState then (node.base.effects crypto event).map .manager else []

/-- **What an event can be**: nothing, a change to `FetchBlockchain`, something in it, or something
in the regular cycle. -/
theorem nodeStep_cases (event : NodeEvent) :
    (node.nodeStep crypto event = node ∧ node.nodeEffects crypto event = []) ∨
    (event = .enterFetchBlockchain ∧ node.MayFetch ∧
      node.nodeStep crypto event = node.enterFetchBlockchain crypto ∧
      node.nodeEffects crypto event = []) ∨
    (∃ fetchEvent, event = .fetch fetchEvent ∧ fetchEvent ≠ .onEnter ∧
      (∀ base, fetchEvent ≠ .elsewhere base) ∧
      node.nodeStep crypto event = node.step crypto fetchEvent ∧
      node.nodeEffects crypto event = (node.act crypto fetchEvent).2) ∨
    ∃ managerEvent : ManagerEvent, event = .manager managerEvent ∧
      (node.Left ∨ managerEvent.StaysInState) ∧
      node.nodeStep crypto event = { node with base := node.base.step crypto managerEvent } ∧
      node.nodeEffects crypto event = (node.base.effects crypto managerEvent).map .manager := by
  cases event with
  | enterFetchBlockchain =>
    by_cases hmay : node.MayFetch
    · exact Or.inr (Or.inl ⟨rfl, hmay, if_pos hmay, rfl⟩)
    · exact Or.inl ⟨if_neg hmay, rfl⟩
  | fetch event =>
    cases event with
    | onEnter => exact Or.inl ⟨rfl, rfl⟩
    | elsewhere base => exact Or.inl ⟨rfl, rfl⟩
    | onCycle now => exact Or.inr (Or.inr (Or.inl ⟨_, rfl, by simp, by simp, rfl, rfl⟩))
    | onExit now => exact Or.inr (Or.inr (Or.inl ⟨_, rfl, by simp, by simp, rfl, rfl⟩))
    | baselineBlockReceived peer block reply =>
      exact Or.inr (Or.inr (Or.inl ⟨_, rfl, by simp, by simp, rfl, rfl⟩))
    | collectionBlockReceived peer block reply =>
      exact Or.inr (Or.inr (Or.inl ⟨_, rfl, by simp, by simp, rfl, rfl⟩))
    | fetchBlocksThread now numConnectedPeers =>
      exact Or.inr (Or.inr (Or.inl ⟨_, rfl, by simp, by simp, rfl, rfl⟩))
    | cacheThread => exact Or.inr (Or.inr (Or.inl ⟨_, rfl, by simp, by simp, rfl, rfl⟩))
  | manager event =>
    by_cases hmay : node.Left ∨ event.StaysInState
    · exact Or.inr (Or.inr (Or.inr ⟨event, rfl, hmay, if_pos hmay, if_pos hmay⟩))
    · exact Or.inl ⟨if_neg hmay, if_neg hmay⟩

end FetchingNode

end SwabianCoin
