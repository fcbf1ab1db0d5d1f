import Btclite.Library.Agreement
import Btclite.Utility.Endian
import Btclite.Utility.Serialize
import Btclite.Consensus.Transactions
import Btclite.Library.Effects
import Btclite.Library.Frames
import Btclite.Network.Address
import Btclite.Network.Framing
import Btclite.Network.Refusals
import Btclite.Network.RoundTrip
import Btclite.Network.Soundness
import Btclite.Chain.ActiveChain
import Btclite.Chain.ChainState
import Btclite.Chain.HeaderIndex
import Btclite.Chain.Locator
import Btclite.Chain.TransactionLinks
import Btclite.Consensus.Assignments
import Btclite.Consensus.Codec
import Btclite.Consensus.HashCache
import Btclite.Library.Medians
import Btclite.Library.Printing
import Btclite.Library.RingQueues
import Btclite.Library.Storage
import Btclite.Library.Tables
import Btclite.Network.AddressBook
import Btclite.Network.BanLists
import Btclite.Network.Banning
import Btclite.Network.Channels
import Btclite.Network.Checksum
import Btclite.Network.Departures
import Btclite.Network.Interruption
import Btclite.Network.NodeCounters
import Btclite.Network.PeersDb
import Btclite.Network.Pings
import Btclite.Network.SelfConnection
import Btclite.Network.Sizes
import Btclite.Network.Tasks
import Btclite.Network.TimerSlots
import Btclite.Utility.CircularBuffers
import Btclite.Utility.TimerFiring
import Btclite.Utility.UtilTime
import Btclite.Chain.Candidates
import Btclite.Chain.ChainQueries
import Btclite.Chain.SkipPointers
import Btclite.Network.Flooding
import Btclite.Network.Orphans
import Btclite.Utility.LockOrders
import Btclite.Utility.MemoryStreams
import Btclite.Chain.Validity
import Btclite.Library.LeadingDigits
import Btclite.Consensus.CompactNumbers
import Btclite.Chain.ChainWork
import Btclite.Chain.ChainRuns
import Btclite.Utility.Decimals
import Btclite.Network.HostLookup
import Btclite.Network.Seeding
import Btclite.Consensus.MerkleRoots
import Btclite.Consensus.Amounts
import Btclite.Consensus.OutPoints
import Btclite.Consensus.ScriptInts
import Btclite.Library.PairingTrees
import Btclite.Consensus.ScriptNumbers
import Btclite.Consensus.Scripts
import Btclite.Consensus.ScriptPushes
import Btclite.Utility.VarInts
import Btclite.Network.BookEdits
import Btclite.Network.Promotion
import Btclite.Network.Selection
import Btclite.Network.Coverage
import Btclite.Network.Sharing
import Btclite.Network.Refreshing
import Btclite.Library.Iterators
import Btclite.Network.Sweeping
import Btclite.Network.BanLedgers
import Btclite.Network.SubNetBits
import Btclite.Network.BanKeys
import Btclite.Network.AddressRanges
import Btclite.Network.Groups
import Btclite.Network.SendQueue
import Btclite.Network.LocalAddrs
import Btclite.Network.AddrRelay
import Btclite.Network.Intervals
import Btclite.Utility.ThreadPools
import Btclite.Network.Dialogues
import Btclite.Network.Links
import Btclite.Utility.HashTexts
import Btclite.Utility.LockDeletion
import Btclite.Utility.LockScopes
import Btclite.Network.LocatorLimits
import Btclite.Utility.ConfigFiles
import Btclite.Utility.CommandLine
import Btclite.Utility.MedianFilters
import Btclite.Utility.FastRandom
import Btclite.Utility.BitSupply
import Btclite.Utility.RandomContexts
import Btclite.Network.Connections
