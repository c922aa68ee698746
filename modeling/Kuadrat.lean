import Kuadrat.Workloads.Halfway
import Kuadrat.Workloads.Loaded
import Kuadrat.Workloads.Converged
import Kuadrat.Workloads.Percent
import Kuadrat.Workloads.Query
import Kuadrat.Workloads.Running
import Kuadrat.Workloads.Arguments
import Kuadrat.Deploy.Done
import Kuadrat.Deploy.Isolation
import Kuadrat.Deploy.Exit
import Kuadrat.Deploy.Records
import Kuadrat.Deploy.Described
import Kuadrat.Store.Registry
import Kuadrat.Cli.Served
import Kuadrat.Daemon.Timeline
import Kuadrat.Daemon.Exclusion
import Kuadrat.Daemon.Stranded
import Kuadrat.Daemon.Ended
import Kuadrat.Daemon.Reset
import Kuadrat.Daemon.Webhook
import Kuadrat.Deploy.Reconciled
import Kuadrat.Store.Identity
import Kuadrat.Mcp.Segment
import Kuadrat.Canonical
import Kuadrat.Logs
import Kuadrat.Workloads.Secrecy
import Kuadrat.Deploy.Health
import Kuadrat.Daemon.Hooks
import Kuadrat.Daemon.Viewer
import Kuadrat.Daemon.Doorbell
import Kuadrat.Daemon.Site
import Kuadrat.Daemon.Clients
import Kuadrat.Secrets
import Kuadrat.Daemon.Delivery
import Kuadrat.Daemon.Startup
import Kuadrat.Daemon.LogViews
import Kuadrat.Daemon.DeployJson
import Kuadrat.Daemon.Fleet
