import SquaredPg.Bytes
import SquaredPg.Lists
import SquaredPg.Blanks
import SquaredPg.Double
import SquaredPg.Value
import SquaredPg.Sha256
import SquaredPg.Error
import SquaredPg.Json
import SquaredPg.JsonLiterals
import SquaredPg.Paths
import SquaredPg.Identity
import SquaredPg.Version
import SquaredPg.Manifest
import SquaredPg.Index
import SquaredPg.Glob
import SquaredPg.Ownership
import SquaredPg.Substitute
import SquaredPg.Resolve
import SquaredPg.Resolution
import SquaredPg.ResourceService
import SquaredPg.ResolveServices
import SquaredPg.Fallible
import SquaredPg.Plan
import SquaredPg.PlanPaths
import SquaredPg.PlanProperties
import SquaredPg.Requirements
import SquaredPg.PlanSteps
import SquaredPg.Program
import SquaredPg.FileTree
import SquaredPg.HostPath
import SquaredPg.Filesystem
import SquaredPg.FilesystemService
import SquaredPg.Workspace
import SquaredPg.Transaction
import SquaredPg.Staging
import SquaredPg.Commit
import SquaredPg.CommittedTree
import SquaredPg.Provenance
import SquaredPg.PlanOrder
import SquaredPg.PlanDirectories
import SquaredPg.KitOrder
import SquaredPg.Atomicity
import SquaredPg.Sibling
import SquaredPg.Nested
import SquaredPg.RecordText
import SquaredPg.Superseded
import SquaredPg.Operation
import SquaredPg.Validation
import SquaredPg.Verify
import SquaredPg.GenerateVerify
import SquaredPg.Generation
import SquaredPg.Registry
import SquaredPg.Engine
import SquaredPg.Runs
import SquaredPg.Lifecycle
import SquaredPg.Residue
import SquaredPg.OutputLocation
import SquaredPg.Throwing
import SquaredPg.Stranded
import SquaredPg.Warnings
import SquaredPg.TwoGenerators
import SquaredPg.VersionGrammar
import SquaredPg.VersionOrder
import SquaredPg.RangeIntervals
import SquaredPg.RangeText
import SquaredPg.GlobMatch
import SquaredPg.Classification
import SquaredPg.Splice
import SquaredPg.CrossValidation
import SquaredPg.WholeFiles
import SquaredPg.VerifyCounts
import SquaredPg.JsonNumbers
import SquaredPg.Defaults
import SquaredPg.EffectiveParameters
import SquaredPg.IndexInvariant
import SquaredPg.IdentityGrammar
import SquaredPg.TypeAgreement
import SquaredPg.Arguments
import SquaredPg.Lua
import SquaredPg.LuaBoundary
import SquaredPg.ArgumentParameters
import SquaredPg.Shell
import SquaredPg.ShellQuote
import SquaredPg.Sorting
import SquaredPg.Discovery
import SquaredPg.JsonTexts
import SquaredPg.ReportJson
import SquaredPg.Sysroot
import SquaredPg.Tiers
import SquaredPg.Destruct
import SquaredPg.TierCommands
import SquaredPg.TierMoves
import SquaredPg.TierSafety
import SquaredPg.Memo
import SquaredPg.CartridgeCache
import SquaredPg.HostArguments
import SquaredPg.Quarantine
import SquaredPg.TierContents
import SquaredPg.WorkflowField
import SquaredPg.Inventory
import SquaredPg.JsonReader
import SquaredPg.IteratedHash
import SquaredPg.Sha256Digest
import SquaredPg.Rounding
import SquaredPg.DoubleRounding
import SquaredPg.DoubleText
import SquaredPg.JsonRoundTrip
import SquaredPg.JsonSettled
import SquaredPg.Yields
import SquaredPg.StepsApart
import SquaredPg.ApplySucceeds
import SquaredPg.Recovery
import SquaredPg.SessionSafety
import SquaredPg.TamperEvidence
import SquaredPg.DryRun
import SquaredPg.Reports
import SquaredPg.Configuration
import SquaredPg.Workflow
import SquaredPg.Consulting
import SquaredPg.ConfiguredCommands
import SquaredPg.NewCommand
import SquaredPg.EnclosingWorkspace
import SquaredPg.VerifyCommand
import SquaredPg.ReportCommands
