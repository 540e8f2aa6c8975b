import Titan.CChain.Attestations
import Titan.CChain.FeeConservation
import Titan.Snow.Snowflake
import Titan.Snow.LazyRuns
import Titan.CChain.ACP176
import Titan.CChain.Predicate
import Titan.PChain.L1Balances
import Titan.PChain.SpendConservation
import Titan.PChain.Reward
import Titan.Atomic.MempoolRuns
import Titan.Atomic.Conservation
import Titan.Atomic.BlockRuns
import Titan.Atomic.Credentials
import Titan.Database.OverlayRuns
import Titan.Database.ArchiveHistory
import Titan.Shared.Runs
import Titan.Bootstrap.Heights
import Titan.Bootstrap.Restarts
import Titan.Warp.Quorum
import Titan.Sync.Ranges
import Titan.ProposerVM.Restarts
import Titan.Network.ThrottlerRuns
import Titan.StateSync.Choice
import Titan.StateSync.Frontiers
import Titan.Genesis.Soundness
import Titan.Snowman.Bubbling
import Titan.Snow.TreeRuns
