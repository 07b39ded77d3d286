import McpVault.RevisionStoreProofs
import McpVault.GlobProofs
import McpVault.HeadingEditProofs
import McpVault.RenderedDiffProofs
import McpVault.WriteRecoveryProofs
import McpVault.PathLockProofs
import McpVault.PackRankProofs
import McpVault.JobWorkerProofs
import McpVault.PublicationProofs
import McpVault.RememberProofs
import McpVault.EndpointProofs
import McpVault.LoginLimiterProofs
import McpVault.BrowseProofs
import McpVault.SearchProofs
import McpVault.ArchiveProofs
import McpVault.SemanticForgetProofs
import McpVault.VectorSearchProofs
import McpVault.StructuredOutputProofs
import McpVault.SuppressionGateProofs
