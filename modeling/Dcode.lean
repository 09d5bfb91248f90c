import Dcode.Agent.Proofs.ExecutionProofs
import Dcode.Agent.Proofs.RegistryProofs
import Dcode.Agent.Proofs.ResidencyProofs
import Dcode.AppServer.Proofs.RequestSerializationProofs
import Dcode.ApplyPatch.Proofs.GrammarProofs
import Dcode.ApplyPatch.Proofs.ReplacementsProofs
import Dcode.Config.Proofs.McpSaveProofs
import Dcode.Config.Proofs.MergeProofs
import Dcode.Context.Proofs.CompactLimitProofs
import Dcode.Context.Proofs.NormalizeProofs
import Dcode.ExecPolicy.Proofs.AmendProofs
import Dcode.ExecPolicy.Proofs.NetworkRulesProofs
import Dcode.ExecServer.Proofs.RecoverEventsProofs
import Dcode.ExecServer.Proofs.StdinWritesProofs
import Dcode.Hooks.Proofs.DiscoveryProofs
import Dcode.Mcp.Proofs.ToolNamesProofs
import Dcode.MessageHistory.Proofs.HistoryProofs
import Dcode.NetworkProxy.Proofs.AllowlistProofs
import Dcode.NoiseRelay.Proofs.MessageFramingProofs
import Dcode.NoiseRelay.Proofs.OrderedCiphertextProofs
import Dcode.Permissions.Proofs.OrderProofs
import Dcode.Permissions.Proofs.SignatureProofs
import Dcode.RemoteControl.Proofs.WebsocketStateProofs
import Dcode.Rollout.Proofs.ModelContextProofs
import Dcode.Rollout.Proofs.ThreadListProofs
import Dcode.ShellCommand.Proofs.DangerousCommandProofs
import Dcode.StreamParser.Proofs.AssistantTextProofs
import Dcode.ThreadHistory.Proofs.RollbackProofs
import Dcode.ThreadStore.Proofs.ProjectionProofs
import Dcode.Truncation.Proofs.ContentItemsProofs
import Dcode.TurnDiff.Proofs.CacheProofs
import Dcode.UnifiedExec.Proofs.HeadTailBufferProofs
import Dcode.UnifiedExec.Proofs.OutputProgressProofs
import Dcode.WorldState.Proofs.SnapshotProofs
