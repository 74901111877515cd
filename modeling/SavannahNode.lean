import SavannahNode.Spec.ConsistentHashing
import SavannahNode.Spec.QueueClear
import SavannahNode.Spec.SnowballTreeFlat
import SavannahNode.Spec.AvalancheEarlyTermination
import SavannahNode.Spec.AvalancheFrontier
import SavannahNode.Spec.BuilderSteps
import SavannahNode.Spec.SpentOnce
import SavannahNode.Spec.Rewards
import SavannahNode.Spec.UniformSample
import SavannahNode.Spec.SharedMemoryPages
import SavannahNode.Spec.WeightedSample
import SavannahNode.Spec.MempoolInvariant
import SavannahNode.Spec.OracleBlocks
import SavannahNode.Spec.AncestorChains
import SavannahNode.Spec.SnowmanBootstrapRun
import SavannahNode.Spec.WalletSigning
import SavannahNode.Spec.StateSyncEvidence
import SavannahNode.Spec.RouterRequests
import SavannahNode.Spec.PollResponses
