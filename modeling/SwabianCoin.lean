import SwabianCoin.Lib.OrdMap
import SwabianCoin.Lib.Run
import SwabianCoin.Lib.Machine
import SwabianCoin.Lib.Base64
import SwabianCoin.Lib.Bits
import SwabianCoin.Lib.Reader
import SwabianCoin.Lib.Numeral
import SwabianCoin.Lib.Digest
import SwabianCoin.Lib.Window
import SwabianCoin.BlockDefinitions
import SwabianCoin.CryptoHelper
import SwabianCoin.HashStreamBuf
import SwabianCoin.Cache
import SwabianCoin.Blockchain
import SwabianCoin.Validation
import SwabianCoin.DataValue
import SwabianCoin.ChainRun
import SwabianCoin.Ledger
import SwabianCoin.Assembly
import SwabianCoin.Conservation
import SwabianCoin.SignedOnce
import SwabianCoin.Queries
import SwabianCoin.Baseline
import SwabianCoin.FetchBlockchain
import SwabianCoin.FetchedIds
import SwabianCoin.Introduced
import SwabianCoin.Supporters
import SwabianCoin.Rooted
import SwabianCoin.Grid
import SwabianCoin.FetchedChain
import SwabianCoin.FastForward
import SwabianCoin.Joining
import SwabianCoin.Eviction
import SwabianCoin.Majority
import SwabianCoin.RateLimit
import SwabianCoin.Node
import SwabianCoin.HashChain
import SwabianCoin.Provenance
import SwabianCoin.SupplyCap
import SwabianCoin.SignatureText
import SwabianCoin.Serialization
import SwabianCoin.P2PConnector
import SwabianCoin.RoundTrip
import SwabianCoin.Received
import SwabianCoin.Transfers
import SwabianCoin.EntryPointFetcher
import SwabianCoin.Truncation
import SwabianCoin.BloomFilter
import SwabianCoin.ActivePeersCollector
import SwabianCoin.View
import SwabianCoin.Replay
import SwabianCoin.HonestPeers
import SwabianCoin.Synchronisation
import SwabianCoin.Answers
import SwabianCoin.Application
import SwabianCoin.Reset
import SwabianCoin.Folder
import SwabianCoin.Spelling
import SwabianCoin.Persistence
import SwabianCoin.Rollover
import SwabianCoin.Status
import SwabianCoin.UpdateStateThread
import SwabianCoin.MinerFollows
import SwabianCoin.MinerThreads
import SwabianCoin.GenuineRoot
import SwabianCoin.Delivery
import SwabianCoin.Schedule
import SwabianCoin.WireNetwork
