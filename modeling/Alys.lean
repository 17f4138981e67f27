import Alys.Basic.Types
import Alys.Lib.Accrual
import Alys.Lib.Action
import Alys.Lib.Atomic
import Alys.Lib.Codec
import Alys.Lib.Column
import Alys.Lib.Collect
import Alys.Lib.Contract
import Alys.Lib.Capped
import Alys.Lib.Endian
import Alys.Lib.Fair
import Alys.Lib.Gcra
import Alys.Lib.Keyed
import Alys.Lib.Ledger
import Alys.Lib.Maps
import Alys.Lib.Merkle
import Alys.Lib.Numeral
import Alys.Lib.Observe
import Alys.Lib.Ordered
import Alys.Lib.Pipe
import Alys.Lib.Quorum
import Alys.Lib.Rounding
import Alys.Lib.Run
import Alys.Lib.Segment
import Alys.Lib.Tally
import Alys.Lib.Tapscript
import Alys.Lib.Text
import Alys.Lib.Thread
import Alys.Lib.Varint
import Alys.Aura.Signatures
import Alys.Aura.Aggregate
import Alys.Aura.Majority
import Alys.Aura.Worker
import Alys.Candidate.Cache
import Alys.Candidate.Approvals
import Alys.Candidate.Coherence
import Alys.Candidate.Representation
import Alys.Federation.Bridge
import Alys.Federation.Wallet
import Alys.Federation.Address
import Alys.Federation.Balance
import Alys.Federation.Collector
import Alys.Federation.Payment
import Alys.Federation.Pegouts
import Alys.Federation.Script
import Alys.Pow.AuxPow
import Alys.Pow.Mine
import Alys.Pow.Wire
import Alys.Pow.Commitment
import Alys.Pow.Retarget
import Alys.Pow.Compact
import Alys.Pow.Adjustment
import Alys.Chain.Store
import Alys.Chain.State
import Alys.Chain.Withdrawals
import Alys.Chain.Process
import Alys.Chain.Steps
import Alys.Chain.Slots
import Alys.Chain.Rejection
import Alys.Chain.Deposits
import Alys.Chain.Spending
import Alys.Chain.Linear
import Alys.Chain.Finality
import Alys.Chain.Genesis
import Alys.Chain.Stall
import Alys.Chain.Rollback
import Alys.Chain.Ancestry
import Alys.Chain.Blocks
import Alys.Chain.Walks
import Alys.Chain.Replay
import Alys.Chain.HashCache
import Alys.Chain.Tasks
import Alys.Chain.Fees
import Alys.Chain.Receipts
import Alys.Chain.Produce
import Alys.Chain.Pegins
import Alys.Chain.Monitor
import Alys.Chain.Miner
import Alys.Chain.PegoutSignatures
import Alys.Chain.Submission
import Alys.Chain.Signing
import Alys.Chain.Gossip
import Alys.Chain.Difficulty
import Alys.Chain.Sync
import Alys.Chain.Breaker
import Alys.Chain.Headway
import Alys.Chain.CatchUp
import Alys.Chain.Database
import Alys.Chain.BlockStream
import Alys.Chain.Server
import Alys.Chain.Mining
import Alys.Network.Nodes
import Alys.Network.Agreement
import Alys.Network.Requests
import Alys.Network.Limiter
import Alys.Network.SelfLimiter
import Alys.Network.Serving
import Alys.Network.Multiaddrs
import Alys.Network.Handler
import Alys.Network.Connection
import Alys.Network.Inbound
import Alys.Network.Outbound
import Alys.Network.Backend
import Alys.Network.Codec
import Alys.Network.Streams
import Alys.Network.Reconnect
