import CipherOcto.Lib.Machine
import CipherOcto.Lib.Rounding
import CipherOcto.Lib.Bytes
import CipherOcto.Lib.Scaled
import CipherOcto.Determin.Dfp
import CipherOcto.Determin.DfpCompare
import CipherOcto.Determin.DfpEquality
import CipherOcto.Determin.U256
import CipherOcto.Determin.Arithmetic
import CipherOcto.Determin.AddPaths
import CipherOcto.Determin.AddRounding
import CipherOcto.Determin.ScaledOps
import CipherOcto.Determin.Closure
import CipherOcto.Determin.Overflow
import CipherOcto.Determin.SquareRoot
import CipherOcto.Determin.MulDivRounding
import CipherOcto.Lib.Binary64
import CipherOcto.Determin.F64
import CipherOcto.Determin.Dqa
import CipherOcto.Determin.DqaWire
import CipherOcto.Determin.DqaInt
import CipherOcto.Lib.Limbs
import CipherOcto.Lib.Knuth
import CipherOcto.Determin.BigInt
import CipherOcto.Determin.BigIntOps
import CipherOcto.Determin.BigIntDiv
import CipherOcto.Determin.Decimal
import CipherOcto.Determin.DecimalInternal
import CipherOcto.Lib.Transcript
import CipherOcto.Lib.Trace
import CipherOcto.Lib.Reader
import CipherOcto.Encoding.Constraint
import CipherOcto.Encoding.Codec
import CipherOcto.Encoding.Canonical
import CipherOcto.Encoding.RoundTrip
import CipherOcto.Lib.Cursor
import CipherOcto.Encoding.Bounds
import CipherOcto.Cap.Caveat
import CipherOcto.Cap.Chain
import CipherOcto.Cap.Authenticity
import CipherOcto.Cap.Subsumption
import CipherOcto.Cap.Attenuation
import CipherOcto.Cap.WrappedWalk
import CipherOcto.Cap.Panics
import CipherOcto.Cap.Preimage
import CipherOcto.Lib.Chunks
import CipherOcto.Cap.Packing
import CipherOcto.Cap.PaymentBudget
import CipherOcto.Cap.Payment
import CipherOcto.Lib.Descending
import CipherOcto.Lib.PaddedTree
import CipherOcto.Sync.Stream
import CipherOcto.Sync.Session
import CipherOcto.Sync.ReplayCache
import CipherOcto.Sync.Summary
import CipherOcto.Sync.TokenBucket
import CipherOcto.Substrate.Hlc
import CipherOcto.Substrate.Wal
import CipherOcto.Substrate.Cluster
import CipherOcto.Substrate.Replay
import CipherOcto.Substrate.Tamper
import CipherOcto.Substrate.Coordinator
import CipherOcto.Substrate.Governance
import CipherOcto.Lib.SortedMap
import CipherOcto.Market.OrderBook
import CipherOcto.Market.Priority
import CipherOcto.Network.DotFragment
import CipherOcto.Network.GossipFragment
import CipherOcto.Lib.PairTree
import CipherOcto.Lib.Numeral
import CipherOcto.Lib.SortBy
import CipherOcto.Network.Merkle
import CipherOcto.Network.AntiEntropy
import CipherOcto.Network.Mempool
import CipherOcto.Network.DotReplay
import CipherOcto.Network.SlashAggregation
import CipherOcto.Network.RelayAggregation
import CipherOcto.Network.Onion
import CipherOcto.Network.OnionNonces
import CipherOcto.Network.GossipDedup
import CipherOcto.Settlement.Envelope
import CipherOcto.Settlement.Store
import CipherOcto.Settlement.SettlementEvent
import CipherOcto.Settlement.ReceiptChain
import CipherOcto.Reputation.Recorders
import CipherOcto.Reputation.Reads
import CipherOcto.Router.RateLimiter
import CipherOcto.Router.Pricing
import CipherOcto.Router.Ledger
import CipherOcto.Router.Idempotence
import CipherOcto.Router.SpendTree
import CipherOcto.Router.Slashing
import CipherOcto.Vault.BalanceCache
import CipherOcto.Determin.BigIntExact
import CipherOcto.Determin.BigIntShift
import CipherOcto.Determin.BigIntWire
import CipherOcto.Determin.BigIntText
import CipherOcto.Determin.DqaExact
import CipherOcto.Determin.DqaOrder
import CipherOcto.Determin.DecimalWire
import CipherOcto.Determin.DecimalExact
import CipherOcto.Lib.Newton
import CipherOcto.Determin.DecimalSqrt
import CipherOcto.Determin.DecimalString
import CipherOcto.Lib.Loop
import CipherOcto.Determin.Matrix
import CipherOcto.Determin.Activation
import CipherOcto.Sync.CacheOrder
import CipherOcto.Sync.Envelope
import CipherOcto.Vault.Projection
import CipherOcto.Network.Reassembly
import CipherOcto.Network.MerkleDescent
import CipherOcto.Network.Compression
import CipherOcto.Network.Election
import CipherOcto.Settlement.Consume
import CipherOcto.Settlement.ReceiptBinding
import CipherOcto.Reputation.GovernanceBinding
import CipherOcto.Determin.WideSquare
import CipherOcto.Lib.IndexedTable
import CipherOcto.Lib.Since
import CipherOcto.Network.GroupRegistry
import CipherOcto.Lib.Crc
import CipherOcto.Sync.Segment
import CipherOcto.Network.DcConsensus
import CipherOcto.Storage.SqlSplit
import CipherOcto.Lib.Redo
import CipherOcto.Storage.Migrations
import CipherOcto.Audit.Chain
import CipherOcto.Audit.Sink
