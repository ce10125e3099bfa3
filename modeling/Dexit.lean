import Dexit.Parlia.Acceptance
import Dexit.Parlia.Ownership
import Dexit.Staking.Owners
import Dexit.Staking.Optimality
import Dexit.GovHub.Voting
import Dexit.Parlia.SignRecently
import Dexit.Parlia.Classification
import Dexit.Core.DiffIndex
import Dexit.Core.Prefetching
import Dexit.Core.LightSoundness
import Dexit.Core.BadBlocks
import Dexit.Core.ForkId
import Dexit.Params.Compatibility
import Dexit.Miner.SystemGas
import Dexit.Core.HeaderIndex
import Dexit.Core.SetHead
import Dexit.Core.CanonicalIndex
import Dexit.Types.MiningOrder
import Dexit.Rlp.Bijection
import Dexit.TxPool.Capacity
import Dexit.TxPool.PendingRange
import Dexit.Rawdb.Numbering
import Dexit.Vm.ReadOnly
import Dexit.Staking.PunishList
import Dexit.Parlia.BackOff
import Dexit.Vm.LightClient
import Dexit.Fetcher.BlockFetcher
import Dexit.Fetcher.TxFetcher
import Dexit.Vm.CodeBitmap
import Dexit.Core.ChainIndexer
