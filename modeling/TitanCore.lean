import TitanCore.AccountRecords
import TitanCore.Block
import TitanCore.BlockSelection
import TitanCore.Blockchain
import TitanCore.BlockchainInvariant
import TitanCore.Bootstrap
import TitanCore.Bytes
import TitanCore.ChainCommitment
import TitanCore.ChainLookup
import TitanCore.Connection
import TitanCore.DecodedNumbers
import TitanCore.Execution
import TitanCore.FairRun
import TitanCore.FairTurns
import TitanCore.Finality
import TitanCore.FiniteMap
import TitanCore.Flood
import TitanCore.GenesisConfig
import TitanCore.GreedyRun
import TitanCore.HashIndex
import TitanCore.Hex
import TitanCore.HexLanguage
import TitanCore.Json
import TitanCore.JsonReader
import TitanCore.KeyFiles
import TitanCore.Keys
import TitanCore.Liveness
import TitanCore.Mempool
import TitanCore.MempoolAgreement
import TitanCore.MempoolConsistency
import TitanCore.MempoolFeeding
import TitanCore.MempoolRevalidate
import TitanCore.Message
import TitanCore.MessageSize
import TitanCore.Network
import TitanCore.NetworkManager
import TitanCore.Node
import TitanCore.NodeAgreement
import TitanCore.NodeAnnouncements
import TitanCore.NodeBudget
import TitanCore.NodeCatchUp
import TitanCore.NodeCleanup
import TitanCore.NodeDurability
import TitanCore.NodeFrames
import TitanCore.NodeGossip
import TitanCore.NodeHandlers
import TitanCore.NodeInvariant
import TitanCore.NodeLedger
import TitanCore.NodePersistence
import TitanCore.NodeProgress
import TitanCore.NodeRecovery
import TitanCore.NodeRules
import TitanCore.NodeRun
import TitanCore.OfflineSigning
import TitanCore.PeerSession
import TitanCore.PendingView
import TitanCore.PoolCleanup
import TitanCore.PrettyDump
import TitanCore.Program
import TitanCore.Reference
import TitanCore.RoundRobin
import TitanCore.Rpc
import TitanCore.RpcCodes
import TitanCore.RpcErrors
import TitanCore.RpcService
import TitanCore.RpcSubmissions
import TitanCore.Settlement
import TitanCore.State
import TitanCore.StateConservation
import TitanCore.StateReplay
import TitanCore.StateSequence
import TitanCore.Storage
import TitanCore.StorageRefinement
import TitanCore.StrictDump
import TitanCore.Transaction
import TitanCore.TwoNodes
import TitanCore.WaitingLine
import TitanCore.WriteQueue
