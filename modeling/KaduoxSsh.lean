import KaduoxSsh.Cli.FleetAccounting
import KaduoxSsh.Cli.LocalNamesSafety
import KaduoxSsh.Cli.WorkspaceSafety
import KaduoxSsh.Core.CmdRendering
import KaduoxSsh.Core.HostPatterns
import KaduoxSsh.Core.HostTrustSafety
import KaduoxSsh.Core.JumpChainSafety
import KaduoxSsh.Core.PasswordMethods
import KaduoxSsh.Core.PosixRendering
import KaduoxSsh.Core.Privileged
import KaduoxSsh.Core.ProxyJumpGrammar
import KaduoxSsh.Core.Socks
import KaduoxSsh.Daemon.Aliases
import KaduoxSsh.Daemon.Answers
import KaduoxSsh.Daemon.ExecRoutes
import KaduoxSsh.Daemon.Shell
import KaduoxSsh.Desktop.AiChainsSafety
import KaduoxSsh.Desktop.AiCommandsSafety
import KaduoxSsh.Desktop.AiProtocolSafety
import KaduoxSsh.Desktop.AiStoreSafety
import KaduoxSsh.Desktop.AiTextualCalls
import KaduoxSsh.Desktop.AiTrimming
import KaduoxSsh.Desktop.ChainSaving
import KaduoxSsh.Desktop.Chaining
import KaduoxSsh.Desktop.CommandHistorySafety
import KaduoxSsh.Desktop.DirectoryDownloadExactness
import KaduoxSsh.Desktop.HistoryPages
import KaduoxSsh.Desktop.LexerPartition
import KaduoxSsh.Desktop.RedirectDetection
import KaduoxSsh.Desktop.ServiceVerbs
import KaduoxSsh.Desktop.SessionsSafety
import KaduoxSsh.Desktop.WindowsQuoting
import KaduoxSsh.Hosts.Folders
import KaduoxSsh.Hosts.ImportedRoutes
import KaduoxSsh.Hosts.TableOrder
import KaduoxSsh.Mcp.Discipline
import KaduoxSsh.Mcp.Downloads
import KaduoxSsh.OpenSsh.HostCatalogExactness
import KaduoxSsh.OpenSsh.IncludeCatalog
import KaduoxSsh.OpenSsh.IncludeFound
import KaduoxSsh.OpenSsh.IncludeVariables
import KaduoxSsh.OpenSsh.MatchPatterns
import KaduoxSsh.Transfer.AtomicSyncSafety
import KaduoxSsh.Transfer.DeletePlanSafety
import KaduoxSsh.Transfer.FreshTransferCleanup
import KaduoxSsh.Transfer.GeneratedPreflight
import KaduoxSsh.Transfer.Retry
import KaduoxSsh.Transfer.SyncContent
import KaduoxSsh.Transfer.TaskRegistrySafety
import KaduoxSsh.Transfer.TreeDownloadAgreement
