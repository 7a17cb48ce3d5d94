import SovChain.Chain.Agreement
import SovChain.Chain.Retarget
import SovChain.Chain.Snapshots
import SovChain.Chain.Worked
import SovChain.Mempool.Select
import SovChain.Mining.Stratum
import SovChain.Rpc.BlockLog
import SovChain.Runtime.Approvals
import SovChain.Runtime.Intents
import SovChain.Runtime.Names
import SovChain.Runtime.Screen
import SovChain.Runtime.Signatures
import SovChain.Runtime.Vaults
import SovChain.Runtime.Velocity
import SovChain.Runtime.Vesting
import SovChain.ShieldedPq.Carrier
import SovChain.State.Bundles
import SovChain.State.SparseTree
import SovChain.Chain.Linkage
