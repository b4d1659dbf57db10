import CfgLib.Store.Compact
import CfgLib.Lib.Loop
import CfgLib.Lib.Semidominator
import CfgLib.Graph.Dominator.Dominance
import CfgLib.Dataflow.Fixpoint
import CfgLib.Graph.Dominator.Completion
import CfgLib.Cfg.Split
import CfgLib.Transform.Preserve
import CfgLib.Transform.Commands
import CfgLib.Transform.Dce
import CfgLib.Cfg.RoundTrip
import CfgLib.Cfg.Accepted
import CfgLib.Transform.Reducible
import CfgLib.Transform.SplitRegions
import CfgLib.Rtl.Sound
import CfgLib.Rtl.Placement
import CfgLib.Builder.Build
import CfgLib.Graph.Structure
import CfgLib.Graph.Coldness
import CfgLib.Graph.ColdnessRun
import CfgLib.Graph.ColdnessStart
import CfgLib.Graph.Condensation
import CfgLib.Graph.CallGraph
import CfgLib.Dataflow.Ssa.Place
import CfgLib.Dataflow.ConstantsOrder
import CfgLib.Analysis.PredicatedExact
import CfgLib.Dataflow.DefUse
import CfgLib.Dataflow.LivenessExact
import CfgLib.Transform.Sharing
import CfgLib.Transform.LinearizeFollows
import CfgLib.Transform.LoopInvariants
import CfgLib.Transform.RotatedLoop
import CfgLib.Graph.Horn
import CfgLib.Graph.Relax
import CfgLib.Graph.Stack.Visible
import CfgLib.Graph.Scope.Linear
import CfgLib.Graph.Scope.Visible
import CfgLib.Cfg.Compact
import CfgLib.Graph.IntervalPartition
import CfgLib.Graph.Open.Paths
import CfgLib.Graph.Open.Fold
import CfgLib.Region.Promote
import CfgLib.Hlil.Anchors
import CfgLib.Graph.Search.Reuse
import CfgLib.Graph.Diff.Renumbering
import CfgLib.Analysis.ExprExact
import CfgLib.Transform.Layout
import CfgLib.Cfg.Subgraph
import CfgLib.Graph.Reverse
import CfgLib.Lib.Links
import CfgLib.Analysis.Pattern
import CfgLib.Graph.Classification
import CfgLib.Graph.Verify
import CfgLib.UnionFind
import CfgLib.Hlil.Active
import CfgLib.Graph.Dominator.Post.Control
import CfgLib.Graph.Dominator.Post.Common
import CfgLib.Graph.Fanout
import CfgLib.Transform.Critical
import CfgLib.Transform.Simplified
