import ENode.SearchHoist
import ENode.NameIndexRuns
import ENode.HandoffTransparency
import ENode.Snapshot
import ENode.MirrorLedger
import ENode.Ed3kRuns
import ENode.TcpObfuscation
import ENode.SessionHashes
import ENode.HandoverCompletes
import ENode.NatTimedMap
import ENode.LowIDAllocation
import ENode.WireCounts
import ENode.RankArena
import ENode.OfferLimit
import ENode.ManticoreMeaning
import ENode.UdpCrypt
import ENode.CacheFairness
import ENode.FeedMatch
import ENode.FeedStream
import ENode.RateLimit
import ENode.IPFilter
import ENode.KeepaliveProofs
import ENode.CounterCache
import ENode.SearchService
