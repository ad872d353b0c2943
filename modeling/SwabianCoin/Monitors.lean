import SwabianCoin.Blockchain

/-!
# The clock and the peers

The small components a node consults besides its chain: the grid of block ids that belong to
baselines and the id that belongs to a time (static functions of `BlockchainManager`), the
`OutOfSyncDetector`, and the `PeersMonitor`, which counts violations and bans peers. The time
`now` is what the synchronised timer returned.
-/

namespace SwabianCoin

open Machine

/-! ## Block ids and time -/

/-- The distance of two baselines, a day of cycles. -/
def maxNumBlocksAfterBaseline : UInt64 := 720

/-- A cycle takes two minutes. -/
def cycleLengthMs : BlockchainTime := 120000

/-- The ids of baselines are `1`, `721`, and so on. -/
def isBaselineBlock (blockUid : BlockUid) : Bool :=
  (blockUid - 1) % maxNumBlocksAfterBaseline == 0

/-- The id of the next baseline after a block. -/
def getNextBaselineBlock (blockUid : BlockUid) : BlockUid :=
  ((blockUid - 1) / maxNumBlocksAfterBaseline + 1) * maxNumBlocksAfterBaseline + 1

/-- The id of the last baseline up to a block, which is `1` at least. -/
def getPreviousBaselineBlock (blockUid : BlockUid) : BlockUid :=
  max (maxNumBlocksAfterBaseline + 1) (getNextBaselineBlock blockUid) - maxNumBlocksAfterBaseline

/-- The id the clock asks for: one for each cycle from the first cycle on. -/
def getBlockId (blockchainTime : BlockchainTime) : BlockUid :=
  let div := blockchainTime / cycleLengthMs
  div - min div 12892961

/-! ## Being out of sync -/

/-- What the detector has seen since it was restarted. -/
structure OutOfSyncDetector where
  inputMsgsOutOfSync : Bool := false
  newestBlockHash : Hash := 0
  newestBlockId : BlockUid := 0
  peerInSyncMap : OrdMap PeerId Bool := ∅
  timeOutOfSync : Bool := false

namespace OutOfSyncDetector

/-- `restartCheckCycle`: forget the peers, and compare the newest block with the clock. -/
def restartCheckCycle (detector : OutOfSyncDetector) (bc : Blockchain) (now : BlockchainTime) :
    OutOfSyncDetector :=
  match bc.getNewestBlock with
  | none => detector
  | some newest =>
    { inputMsgsOutOfSync := false
      newestBlockHash := newest.header.genericHeader.blockHash
      newestBlockId := newest.header.blockUid
      peerInSyncMap := ∅
      timeOutOfSync := getBlockId now != newest.header.blockUid }

/-- Either the peers or the clock are somewhere else. -/
def isOutOfSync (detector : OutOfSyncDetector) : Bool :=
  detector.inputMsgsOutOfSync || detector.timeOutOfSync

/-- The quotient of two 32-bit counts exceeds one half in floating point exactly when it does,
also when the divisor is zero. -/
def blockReceivedCallback (detector : OutOfSyncDetector) (peer : PeerId) (block : CollectionBlock)
    (reply : Bool) : OutOfSyncDetector :=
  if !reply && block.header.blockUid == detector.newestBlockId + 1 then
    let inSync := block.header.genericHeader.previousBlockHash == detector.newestBlockHash
    let peers := detector.peerInSyncMap.insert peer inSync
    let peersOutOfSync := UInt32.ofNat (peers.values.countP (!·))
    let numPeers := UInt32.ofNat peers.size
    { detector with
      peerInSyncMap := peers
      inputMsgsOutOfSync := decide (numPeers.toNat < 2 * peersOutOfSync.toNat) }
  else detector

end OutOfSyncDetector

/-! ## Violations -/

/-- A node sends its block again after so much time. -/
def timeBetweenPropagationsMs : BlockchainTime := 4000

/-- The times of the last messages and the number of violations of each peer. -/
structure PeersMonitor where
  peerMessageHistory : OrdMap PeerId (List BlockchainTime) := ∅
  peerViolationsMap : OrdMap PeerId UInt32 := ∅

namespace PeersMonitor

/-- So many messages of a peer are remembered. -/
def messageHistorySize : Nat := 50

/-- A peer with more violations is banned. -/
def numToleratedViolations : UInt32 := 3

/-- A peer may be a fifth faster than it should be. -/
def minAllowedAvgTimeBetweenPropagationsMs : BlockchainTime := timeBetweenPropagationsMs * 4 / 5

/-- Count a violation. The answer is whether the peer gets banned. -/
def reportViolation (monitor : PeersMonitor) (peer : PeerId) : PeersMonitor × Bool :=
  let violations := monitor.peerViolationsMap.update peer 0 (· + 1)
  ({ monitor with peerViolationsMap := violations },
    decide (numToleratedViolations < violations.getD peer 0))

/-- Remember the time of a message. The answer is whether the peer sends too fast, which empties
its history. -/
def recordMessage (monitor : PeersMonitor) (peer : PeerId) (now : BlockchainTime) :
    PeersMonitor × Bool :=
  let extended := monitor.peerMessageHistory.getD peer [] ++ [now]
  let history := if messageHistorySize < extended.length then extended.tail else extended
  let tooFast := history.length == messageHistorySize &&
    decide (history.getLastD 0 - history.headD 0 <
      minAllowedAvgTimeBetweenPropagationsMs * UInt64.ofNat (messageHistorySize - 1))
  ({ monitor with
      peerMessageHistory :=
        monitor.peerMessageHistory.insert peer (if tooFast then [] else history) },
    tooFast)

end PeersMonitor

end SwabianCoin
