import McpToolkit.Tasks.Capacity
import McpToolkit.Tasks.Shutdown
import McpToolkit.Tasks.FallbackRate
import McpToolkit.Tasks.Settlement
import McpToolkit.Tasks.HistoryPartitions
import McpToolkit.Sql.ScratchpadPolicy
import McpToolkit.Auth.RequestPath
import McpToolkit.Auth.Witness
import McpToolkit.Auth.Replay
import McpToolkit.Auth.Introspection
import McpToolkit.Auth.TokenExchange
import McpToolkit.Auth.Challenge
import McpToolkit.Auth.RefreshToken
import McpToolkit.Auth.Claims
import McpToolkit.Core.CanonicalJson
import McpToolkit.Core.CursorLaw
import McpToolkit.Core.GuardedAction
import McpToolkit.Core.Pagination
import McpToolkit.Core.ToolVisibility
import McpToolkit.Core.SchemaReferences
import McpToolkit.Policy.ControlPlane
import McpToolkit.Policy.GatewayScopes
import McpToolkit.Policy.SingleFlight
import McpToolkit.Http.LifecycleEntries
import McpToolkit.Http.SqliteStreams
import McpToolkit.Http.Retention
import McpToolkit.Http.Webhook
import McpToolkit.Process.Termination
import McpToolkit.Process.Registry
import McpToolkit.Scratchpad.Cleanup
import McpToolkit.Scratchpad.Quota
import McpToolkit.Artifact.Custody
import McpToolkit.Observability.Redaction
import McpToolkit.Observability.Logfmt
import McpToolkit.Scratchpad.ColumnNames
import McpToolkit.Logs.Query
import McpToolkit.Process.Capture
