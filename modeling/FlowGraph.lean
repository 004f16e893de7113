import FlowGraph.Number.Reading
import FlowGraph.Script.Transcript
import FlowGraph.Session
import FlowGraph.Command.Folder
import FlowGraph.Main
import FlowGraph.Proofs.ScriptRun
import FlowGraph.Proofs.EditingSession
import FlowGraph.Proofs.ImageCode
import FlowGraph.Proofs.BoundaryNodes
import FlowGraph.Proofs.OpenGroups
import FlowGraph.Proofs.Regroup
import FlowGraph.Proofs.ImageLayout
import FlowGraph.Proofs.Snapshots
import FlowGraph.Proofs.Restoring
import FlowGraph.Proofs.HistoryTimeline
import FlowGraph.Proofs.Rounding
import FlowGraph.Proofs.ShortestDecimal
import FlowGraph.Proofs.NumberText
import FlowGraph.Proofs.RuleLanguage
import FlowGraph.Proofs.ScriptReload
import FlowGraph.Proofs.Outlines
import FlowGraph.Proofs.Navigation
import FlowGraph.Proofs.GroupMoves
import FlowGraph.Proofs.JsonText
import FlowGraph.Proofs.JsonDecoding
import FlowGraph.Proofs.ProjectText
import FlowGraph.Proofs.Reopening
import FlowGraph.Proofs.LinkOrder
import FlowGraph.Proofs.SourceStability
import FlowGraph.Proofs.FlowReach
import FlowGraph.Proofs.FlowTrace
import FlowGraph.Proofs.Emission
import FlowGraph.Proofs.CheckedGeneration
import FlowGraph.Proofs.MemberNames
import FlowGraph.Proofs.GroupPlacement
import FlowGraph.Proofs.ScriptLoading
import FlowGraph.Proofs.ScriptDerivation
import FlowGraph.Proofs.ExpressionGrammar
import FlowGraph.Proofs.ExpressionReading
import FlowGraph.Proofs.GroupPorts
import FlowGraph.Proofs.BoundaryRepair
import FlowGraph.Proofs.SourceLayout
import FlowGraph.Proofs.DataUnfolding
import FlowGraph.Proofs.MemberReading
import FlowGraph.Proofs.Pruning
import FlowGraph.Proofs.ScriptCalls
import FlowGraph.Proofs.Indentation
import FlowGraph.Proofs.IndexReading
import FlowGraph.Proofs.PropertyRegistrations
