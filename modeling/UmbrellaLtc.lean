import UmbrellaLtc.Codec
import UmbrellaLtc.VarInt
import UmbrellaLtc.Transaction
import UmbrellaLtc.Header
import UmbrellaLtc.Runs
import UmbrellaLtc.HeaderCoherence
import UmbrellaLtc.Guards
import UmbrellaLtc.Merkle
import UmbrellaLtc.HashTree
import UmbrellaLtc.AuxPow
import UmbrellaLtc.Compact
import UmbrellaLtc.Kgw
import UmbrellaLtc.KgwFixedPoint
import UmbrellaLtc.Prog
import UmbrellaLtc.Script
import UmbrellaLtc.Coins
import UmbrellaLtc.CoinsView
import UmbrellaLtc.CheckBlock
import UmbrellaLtc.MerkleRoot
import UmbrellaLtc.PartialMerkleTree
import UmbrellaLtc.ConnectBlock
import UmbrellaLtc.FlatView
import UmbrellaLtc.Spending
import UmbrellaLtc.ConnectSpec
import UmbrellaLtc.MoneySupply
import UmbrellaLtc.Disconnect
import UmbrellaLtc.Forest
import UmbrellaLtc.BestChain
import UmbrellaLtc.ChainFrame
import UmbrellaLtc.ChainLinks
import UmbrellaLtc.Reorganise
import UmbrellaLtc.IndexSteps
import UmbrellaLtc.Loading
import UmbrellaLtc.ChainRuns
import UmbrellaLtc.MainChain
import UmbrellaLtc.ForkChoice
import UmbrellaLtc.UtxoMap
import UmbrellaLtc.MemPool
import UmbrellaLtc.PoolIndex
import UmbrellaLtc.PoolAccept
import UmbrellaLtc.PoolFlush
import UmbrellaLtc.OrphanTx
import UmbrellaLtc.OrphanBlocks
import UmbrellaLtc.BranchCoins
import UmbrellaLtc.PoolReorg
import UmbrellaLtc.BlockTemplate
import UmbrellaLtc.SerializedSize
import UmbrellaLtc.BlockFiles
import UmbrellaLtc.CheckQueue
import UmbrellaLtc.MerkleExtraction
import UmbrellaLtc.CodecPrefix
import UmbrellaLtc.SignatureHash
import UmbrellaLtc.ScriptOps
import UmbrellaLtc.FindAndDelete
import UmbrellaLtc.EvalScript
import UmbrellaLtc.EvalLimits
import UmbrellaLtc.EvalSigOps
import UmbrellaLtc.AddrMan
import UmbrellaLtc.AddrManCheck
import UmbrellaLtc.AddrManRuns
import UmbrellaLtc.AddrManIds
import UmbrellaLtc.AddrManSerialize
import UmbrellaLtc.AddrManRoundTrip
import UmbrellaLtc.AddrManRestore
import UmbrellaLtc.KeyStore
import UmbrellaLtc.KeyStoreRuns
import UmbrellaLtc.SigCache
import UmbrellaLtc.Locator
import UmbrellaLtc.OrphanRuns
import UmbrellaLtc.KeyPool
import UmbrellaLtc.KeyPoolRuns
import UmbrellaLtc.Framing
import UmbrellaLtc.FramingReceive
import UmbrellaLtc.FramingRuns
import UmbrellaLtc.MergedMining
import UmbrellaLtc.HonestMining
import UmbrellaLtc.Solver
import UmbrellaLtc.MiningRpc
import UmbrellaLtc.MiningRuns
import UmbrellaLtc.Scrypt
import UmbrellaLtc.MerkleBranch
import UmbrellaLtc.SafeExpr
import UmbrellaLtc.BigFixed
import UmbrellaLtc.CompactOrder
import UmbrellaLtc.FixedPoint
import UmbrellaLtc.DifficultyWord
import UmbrellaLtc.DigiShield
import UmbrellaLtc.KgwLocality
import UmbrellaLtc.NFactor
import UmbrellaLtc.CoinbaseValue
import UmbrellaLtc.OrderStatistic
import UmbrellaLtc.MedianTime
import UmbrellaLtc.TimeData
import UmbrellaLtc.HeightLookup
import UmbrellaLtc.Components
import UmbrellaLtc.PointerHeap
import UmbrellaLtc.AddressGroups
import UmbrellaLtc.SelectedSum
import UmbrellaLtc.CoinSelection
import UmbrellaLtc.Renumber
import UmbrellaLtc.OrderPos
import UmbrellaLtc.Rounds
import UmbrellaLtc.CreateTransaction
import UmbrellaLtc.FeeLoop
import UmbrellaLtc.Hex
import UmbrellaLtc.MergedMineProxy
import UmbrellaLtc.AmountCode
import UmbrellaLtc.ScriptCompressor
import UmbrellaLtc.CoinRecord
import UmbrellaLtc.StoredCoins
import UmbrellaLtc.CanonicalSignature
import UmbrellaLtc.AddrManEvict
import UmbrellaLtc.LimitedMap
import UmbrellaLtc.BloomFilter
import UmbrellaLtc.Positional
import UmbrellaLtc.Base58
import UmbrellaLtc.Reader
import UmbrellaLtc.BufferedFile
import UmbrellaLtc.ExternalBlockFile
import UmbrellaLtc.FileStatistics
import UmbrellaLtc.VarIntWords
import UmbrellaLtc.MruSet
import UmbrellaLtc.LockedPages
import UmbrellaLtc.IntegerTypes
import UmbrellaLtc.SafeConversions
import UmbrellaLtc.Limbs
import UmbrellaLtc.UintWords
import UmbrellaLtc.MoneyText
import UmbrellaLtc.BitStream
import UmbrellaLtc.BaseText
import UmbrellaLtc.GreedyMatch
import UmbrellaLtc.ScriptRuns
import UmbrellaLtc.StandardScripts
import UmbrellaLtc.Signing
import UmbrellaLtc.CombineSignatures
import UmbrellaLtc.CoSigning
