import Bpm.Lib.Text
import Bpm.Lib.OrdMap
import Bpm.Lib.Bytes
import Bpm.Lib.Walk
import Bpm.Lib.Protocol
import Bpm.Lib.Worklist
import Bpm.Lib.Json
import Bpm.Registry.Spec
import Bpm.Registry.Packument
import Bpm.Registry.Release
import Bpm.Manifest
import Bpm.Lockfile.Model
import Bpm.Resolver.Overrides
import Bpm.Resolver.Workspaces
import Bpm.Resolver.Platform
import Bpm.Resolver.Sources
import Bpm.Lib.Run
import Bpm.Lib.FileTree
import Bpm.Lib.FileSystem
import Bpm.Resolver.Node
import Bpm.Resolver.Peer
import Bpm.Resolver.Placement
import Bpm.Resolver.Resolve
import Bpm.Registry.Request
import Bpm.Resolver.Steps
import Bpm.Resolver.Project
import Bpm.Resolver.Selection
import Bpm.Resolver.Invariants
import Bpm.Resolver.Assembly
import Bpm.Resolver.Lookup
import Bpm.Lib.Serde
import Bpm.Lockfile.Schema
import Bpm.Lockfile.PathSafety
import Bpm.Lockfile.Validate
import Bpm.Lockfile.RoundTrip
import Bpm.Resolver.Lockable
import Bpm.Resolver.Sink
import Bpm.Graph.Id
import Bpm.Graph.Decode
import Bpm.Graph.Unencoded
import Bpm.Graph.Closure
import Bpm.Publish
import Bpm.Registry.SingleFlight
import Bpm.Registry.Prefetch
import Bpm.Upgrade
import Bpm.Interchange.NpmLock
import Bpm.Interchange.NpmRoundTrip
import Bpm.Interchange.NpmIntegrity
import Bpm.Archive
import Bpm.Omission
import Bpm.Lib.Folds
import Bpm.Lib.Tables
import Bpm.Metadata.Index
import Bpm.Metadata.Repair
import Bpm.Metadata.Repaired
import Bpm.Http.Config
import Bpm.Http.Transport
import Bpm.Gc.Policy
import Bpm.Gc.Selection
import Bpm.Lockfile.PackagePaths
import Bpm.Metadata.Repository
import Bpm.Metadata.Collect
import Bpm.Metadata.Operations
import Bpm.Metadata.Collected
import Bpm.Metadata.References
import Bpm.Metadata.Sessions
import Bpm.Metadata.Leases
import Bpm.Metadata.Races
import Bpm.Lib.Disk
import Bpm.Lib.Overlay
import Bpm.Derived.Key
import Bpm.Registry.Semver
import Bpm.Registry.Disjunction
import Bpm.Resolver.Verdicts
import Bpm.Resolver.GitSources
import Bpm.Store.Artifacts
import Bpm.Store.ImageIndex
import Bpm.Store.Images
import Bpm.Lifecycle.Snapshot
import Bpm.Derived.Store
import Bpm.Lifecycle.Runner
import Bpm.Lifecycle.Phases
import Bpm.Lib.Pool
import Bpm.Lib.Lines
import Bpm.Lib.Fuel
import Bpm.Lib.Intervals
import Bpm.Lib.PrefixCode
import Bpm.Lib.DebugText
import Bpm.Install.Pipeline
import Bpm.Install.Progress
import Bpm.Install.Sourcing
import Bpm.Install.Delivery
import Bpm.Patch.Parse
import Bpm.Patch.Places
import Bpm.Patch.Standard
import Bpm.Patch.Reading
import Bpm.Patch.Accepted
import Bpm.Patch.Unified
import Bpm.Resolver.Intersections
import Bpm.Resolver.Naming
import Bpm.Resolver.PeerContexts
import Bpm.Interchange.PnpmYaml
import Bpm.Interchange.PnpmReading
import Bpm.Interchange.PnpmBlocks
import Bpm.Interchange.PnpmTrees
import Bpm.Interchange.PnpmScalars
import Bpm.Interchange.PnpmFlows
import Bpm.Interchange.PnpmNodes
import Bpm.Interchange.PnpmWritten
import Bpm.Interchange.PnpmLines
import Bpm.Lib.Sweep
import Bpm.Install.Staging
import Bpm.Install.Pruning
import Bpm.Install.Frozen
import Bpm.Resolver.SourceEdges
import Bpm.Materialize.Bins
import Bpm.Archive.Budget
import Bpm.Resolver.SourceRecursion
import Bpm.Lib.Sorting
import Bpm.Lib.DirTree
import Bpm.Store.PackageImage
import Bpm.Volume.Fingerprint
import Bpm.Materialize.LinkTree
import Bpm.Http.Npmrc
import Bpm.Http.AuthScopes
import Bpm.Http.Retry
import Bpm.Http.Redaction
import Bpm.Resolver.GitRefs
import Bpm.Resolver.GitArchive
import Bpm.Derived.Identity
import Bpm.Lib.Listing
import Bpm.Ls
import Bpm.PackageFiles
import Bpm.Lifecycle.Isolation
import Bpm.Archive.Manifest
import Bpm.Interchange.Hoist
import Bpm.Interchange.YarnLock
import Bpm.Interchange.YarnPlaced
import Bpm.Interchange.YarnEnds
import Bpm.Interchange.YarnFlags
import Bpm.Lib.Locking
import Bpm.Metadata.Locks
import Bpm.Install.Ancestors
import Bpm.Install.StagedRuns
import Bpm.Install.StagedTree
import Bpm.Lib.Relinks
import Bpm.Volume.Attach
import Bpm.Volume.Switch
import Bpm.Volume.Builders
