import Holbuild.Library.Digraph
import Holbuild.Library.Machine
import Holbuild.RemoteExec.Formats
import Holbuild.RemoteExec.DagPriorities
import Holbuild.Library.Rows
import Holbuild.RemoteExec.Tables
import Holbuild.RemoteExec.Transactions
import Holbuild.RemoteExec.Changes
import Holbuild.RemoteExec.Coordinator
import Holbuild.RemoteExec.Leases
import Holbuild.RemoteExec.Dependencies
import Holbuild.RemoteExec.Progress
import Holbuild.RemoteExec.Attempts
import Holbuild.RemoteExec.RunBatches
import Holbuild.RemoteExec.ClaimWaits
import Holbuild.RemoteExec.Replicas
import Holbuild.Library.Pools
import Holbuild.RemoteExec.CacheChecks
import Holbuild.Library.Versions
import Holbuild.RemoteExec.EventStream
import Holbuild.Library.Texts
import Holbuild.MachineMemory.Acquire
import Holbuild.Library.DepthFirst
import Holbuild.Library.SortedIndex
import Holbuild.MachineMemory.Admission
import Holbuild.BuildPlan.Nodes
import Holbuild.BuildPlan.Dependencies
import Holbuild.BuildPlan.Selection
import Holbuild.BuildPlan.PlanningOrder
import Holbuild.BuildPlan.Files
import Holbuild.BuildPlan.InputKeys
import Holbuild.BuildPlan.Invalidation
import Holbuild.BuildPlan.ExactInvalidation
import Holbuild.Checkpoints.Selection
import Holbuild.Library.Fields
import Holbuild.Checkpoints.Recovery
import Holbuild.Checkpoints.FailedPrefixes
import Holbuild.Library.Crews
import Holbuild.ParallelBuild.Eviction
import Holbuild.ParallelBuild.Scheduler
import Holbuild.ParallelBuild.Books
import Holbuild.ParallelBuild.Workers
import Holbuild.ParallelBuild.Progress
import Holbuild.ParallelBuild.Build
import Holbuild.ExecAction.Specs
import Holbuild.ExecAction.Verification
import Holbuild.ExecAction.SpecPaths
import Holbuild.ExecAction.Confinement
import Holbuild.Checkpoints.Families
import Holbuild.BuildNode.Programs
import Holbuild.BuildNode.Interrupted
import Holbuild.Cache.Timeouts
import Holbuild.Cache.Manifests
import Holbuild.Cache.Entries
import Holbuild.Cache.Transfer
import Holbuild.Cache.RemotePublish
import Holbuild.Cache.Collection
import Holbuild.Toolchain.Publication
import Holbuild.Dependencies.Checkouts
import Holbuild.Library.Frontier
import Holbuild.RemoteExec.ExportedBatches
import Holbuild.Analyser.Protocol
import Holbuild.Analyser.Records
import Holbuild.Analyser.ProofPlans
import Holbuild.Commands.RemoteBuild
import Holbuild.Analyser.Responses
import Holbuild.Analyser.Prefetch
import Holbuild.BuildPlan.Closures
import Holbuild.MachineMemory.HostMemory
import Holbuild.BuildPlan.RecordedEdges
import Holbuild.Checkpoints.Budget
import Holbuild.BuildPlan.CanonicalGraphs
import Holbuild.ExecAction.Results
import Holbuild.Cache.WorkerCap
import Holbuild.ProofRuntime.PlanPaths
import Holbuild.ProofRuntime.Numbering
import Holbuild.Cache.Breaker
import Holbuild.ParallelBuild.BackgroundPool
import Holbuild.Dependencies.FactCache
import Holbuild.Commands.KernelBypass
import Holbuild.Commands.ResubmitKeys
import Holbuild.Commands.Follow
import Holbuild.ProofRuntime.Factories
import Holbuild.Checkpoints.Instrumentation
import Holbuild.RemoteExec.ReleaseRequests
import Holbuild.RemoteExec.BurstTarget
import Holbuild.Http.Connections
import Holbuild.SourceIndex.Separation
