import MonadBft.Validation.CacheVerdicts
import MonadBft.Consensus.Evidence
import MonadBft.Consensus.CertifiedTimeouts
import MonadBft.Consensus.SafetyInvariant
import MonadBft.Wire.Canonical
import MonadBft.BlockTree.Missing
import MonadBft.BlockTree.Tips
import MonadBft.Store.BlockStore
import MonadBft.Wal.Replay
import MonadBft.Bridge.SetRecovery
import MonadBft.Wal.Retention
import MonadBft.BlockSync.Served
import MonadBft.ConsensusState.QuorumFormation
import MonadBft.ConsensusState.EpochStable
import MonadBft.ConsensusState.Agreement
import MonadBft.Bridge.ValSet
import MonadBft.WireAuth.InitReplay
import MonadBft.Tcp.Authentication
import MonadBft.Bridge.FixedDelay
import MonadBft.Bridge.StateSync
import MonadBft.RaptorCast.Accepted
import MonadBft.Wire.EventCodec
import MonadBft.Election
import MonadBft.EpochMap
import MonadBft.EpochTable
import MonadBft.Node.EventQueue
import MonadBft.Node.Timers
import MonadBft.Node.Timestamper
import MonadBft.BlockSync.Sampler
