import QwenHarness.Runtime.Budget
import QwenHarness.Runtime.Round
import QwenHarness.Storage.Export
import QwenHarness.Tools.Unattended
import QwenHarness.Tools.Spending
import QwenHarness.Tools.Batches
import QwenHarness.Tools.Preapproval
import QwenHarness.Worker.Diff
import QwenHarness.Runtime.Authorization
import QwenHarness.Runtime.StateLog
import QwenHarness.Runtime.Requests
import QwenHarness.Protocol.Sanitize
import QwenHarness.Storage.Secrets
import QwenHarness.Storage.SecretKept
import QwenHarness.Tui.DiffRead
import QwenHarness.Tui.Transcript
import QwenHarness.Tui.Unicode
import QwenHarness.Tui.EditorRuns
import QwenHarness.Sandbox.CanonicalPath
import QwenHarness.Sandbox.ProcessRuns
import QwenHarness.Background.Recovery
import QwenHarness.Teams.Handover
import QwenHarness.Teams.Waiting
import QwenHarness.Teams.Requests
import QwenHarness.Cli.HookGate
import QwenHarness.Cli.TeamWork
import QwenHarness.Cli.TeamFrame
import QwenHarness.Cli.Roster
import QwenHarness.Cli.Supervisor
import QwenHarness.Scheduler.Marks
import QwenHarness.Hooks.Decision
import QwenHarness.Hooks.Glob
import QwenHarness.Config.Authority
import QwenHarness.Mcp.Servers
import QwenHarness.Mcp.Connect
import QwenHarness.Mcp.Boundaries
import QwenHarness.Mcp.SseCuts
import QwenHarness.Mcp.HttpTransport
import QwenHarness.Mcp.JsonRpc
import QwenHarness.Daemon.Socket
import QwenHarness.Network.Broker
import QwenHarness.Daemon.Lease
import QwenHarness.Memory.LockSteps
import QwenHarness.Memory.Dream
import QwenHarness.Memory.DreamStops
import QwenHarness.Memory.Winners
import QwenHarness.Memory.DreamRewrites
import QwenHarness.Background.Refusal
import QwenHarness.Background.NotificationQueue
import QwenHarness.Agents.Subagents
import QwenHarness.Skills.Arguments
import QwenHarness.Skills.FrontmatterRead
import QwenHarness.Skills.Catalog
import QwenHarness.Policy.Grounds
import QwenHarness.Policy.ActionDigest
import QwenHarness.Provider.Sse
import QwenHarness.Provider.ChatCalls
import QwenHarness.Provider.Retried
import QwenHarness.Context.Kept
import QwenHarness.Network.Origin
import QwenHarness.Scheduler.Lifetime
import QwenHarness.Scheduler.CronDays
import QwenHarness.Runtime.Managed
import QwenHarness.Cli.Fork
import QwenHarness.Daemon.Writers
