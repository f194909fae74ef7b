import SquaredPg.FilesystemService
import SquaredPg.Json
import SquaredPg.Plan

namespace SquaredPg

open Ascii Program

namespace MetadataService

def kMetadataFile : Bytes := ascii ".squared/metadata.json"

def kRecordVersion : Int64 := 1

def resourceEntry (id : ResourceId) (version : Bytes) : Value :=
  .object [(ascii "id", .string id.str), (ascii "version", .string version)]

def resourceEntries (refs : List ResourceRef) (versions : List Bytes) : Value :=
  .array (refs.mapIdx fun i ref ↦ resourceEntry ref.id (versions[i]?.getD []))

/-- `MetadataService::build_record`; the transaction fills in the provenance. -/
def buildRecord (plan : GenerationPlan) (engineVersion : Version) : Value :=
  .object
    [(ascii "record_version", .integer kRecordVersion),
      (ascii "generator", .string (ascii "squared-pg")),
      (ascii "generator_version", .string engineVersion.toString),
      (ascii "project", .object
        [(ascii "name", .string plan.projectName),
          (ascii "working_directory", .string plan.workingDirectory),
          (ascii "platforms", .strings plan.platforms),
          (ascii "framework_version", .string plan.frameworkVersion)]),
      (ascii "resources", .object
        [(ascii "template", resourceEntry plan.templateRef.id plan.templateVersion),
          (ascii "kits", resourceEntries plan.kits plan.kitVersions),
          (ascii "packages", resourceEntries plan.packages plan.packageVersions),
          (ascii "assets", .strings (plan.assets.map ResourceRef.toString))]),
      (ascii "layers", .object [(ascii "application", .strings [plan.workingDirectory])]),
      (ascii "provenance", .array [])]

end MetadataService

namespace TransactionService

open FilesystemService MetadataService

structure Outcome where
  filesWritten : ℕ := 0
  directoriesCreated : ℕ := 0
  hashes : List (Bytes × Bytes) := []

/-- `staging_path_for`: a hidden directory beside the target. -/
def stagingPathFor (target : HostPath) : HostPath :=
  let parent := if target.hasParentPath then target.parentPath else ⟨false, [ascii "."]⟩
  parent.append ⟨false, [ascii "." ++ target.filename ++ ascii ".squared-tmp"]⟩

def workspaceExists (target : HostPath) : EngineError :=
  { makeError .filesystem "filesystem.workspace.exists"
      (ascii "the output location already exists: " ++ target.string) with
    path := target.string
    recoverable := true
    diagnostics := .object [(ascii "hint", .string (ascii
      "this engine build generates new workspaces only; regenerating into an existing one requires the journalled update path"))] }

def workspaceNested (target ancestor : HostPath) : EngineError :=
  { makeError .filesystem "filesystem.workspace.nested"
      (ascii "the output location is inside an existing workspace: " ++ ancestor.string) with
    path := target.string
    recoverable := true
    diagnostics := .object
      [(ascii "workspace", .string ancestor.string),
        (ascii "hint", .string (ascii
          "a workspace inside a workspace cannot be promoted or verified on its own; generate outside it, or pass -o with a path that is not nested"))] }

def refuseExisting (target : HostPath) : FsProgram Unit := do
  if ← exists_ target then fail (workspaceExists target) else pure ()

def recordOf (directory : HostPath) : HostPath := directory.append (.ofBytes kMetadataFile)

def refuseNested (target : HostPath) : List HostPath → FsProgram Unit
  | [] => pure ()
  | ancestor :: rest => do
    if ← exists_ (recordOf ancestor) then fail (workspaceNested target ancestor)
    else refuseNested target rest

def clearStaging (staging : HostPath) : FsProgram Unit := do
  if ← exists_ staging then removeAll staging else pure ()

def destination (staging : HostPath) (step : PlanStep) : HostPath :=
  staging.append (.ofBytes step.path)

def syncUnless (fast : Bool) (path : HostPath) : FsProgram Unit :=
  if fast then pure () else syncPath path

def applyStep (staging : HostPath) (fast : Bool) (outcome : Outcome) (step : PlanStep) :
    FsProgram Outcome :=
  if step.isDirectory then do
    createDirectories (destination staging step)
    pure { outcome with directoriesCreated := outcome.directoriesCreated + 1 }
  else do
    writeFile (destination staging step) step.content step.executable
    syncUnless fast (destination staging step)
    pure
      { outcome with
        filesWritten := outcome.filesWritten + 1
        hashes := outcome.hashes ++ [(step.path, toHex (sha256 step.content))] }

/-- The provenance row of a step: the hash is the first one that is recorded for its path. -/
def provenanceRow (hashes : List (Bytes × Bytes)) (step : PlanStep) : Value :=
  .object
    [(ascii "path", .string step.path),
      (ascii "ownership", .string step.ownership.toString),
      (ascii "origin", .string step.origin.str),
      (ascii "origin_version", .string step.originVersion),
      (ascii "phase", .string step.phase.toString),
      (ascii "sha256", .string ((hashes.lookup step.path).getD []))]

def provenance (steps : List PlanStep) (hashes : List (Bytes × Bytes)) : List Value :=
  (steps.filter fun step ↦ step.isDirectory = false).map (provenanceRow hashes)

def completeRecord (metadataRecord : Value) (steps : List PlanStep)
    (hashes : List (Bytes × Bytes)) (fast : Bool) : Value :=
  (metadataRecord.set (ascii "provenance") (.array (provenance steps hashes))).set
    (ascii "durability") (.string (ascii (if fast then "fast" else "durable")))

def writeRecord (staging : HostPath) (fast : Bool) (record : Value) : FsProgram Unit := do
  writeFile (recordOf staging) (jsonWrite record true) false
  syncUnless fast (recordOf staging)

/-- What happens between the creation of the staging directory and the end of the rename. -/
def build (staging target : HostPath) (plan : GenerationPlan) (metadataRecord : Value)
    (fast : Bool) : FsProgram Outcome := do
  let outcome ← plan.steps.foldlM (applyStep staging fast) {}
  writeRecord staging fast (completeRecord metadataRecord plan.steps outcome.hashes fast)
  rename staging target
  pure { outcome with filesWritten := outcome.filesWritten + 1 }

/-- `abort_with`: the removal of the staging tree may fail as well. -/
def abortWith {α : Type} (staging : HostPath) (error : EngineError) : FsProgram α := do
  (removeAll staging).handle fun (_ : EngineError) ↦ pure ()
  fail error

def targetPath (cwd : Location) (output : Bytes) : HostPath :=
  (HostPath.ofBytes output).makeAbsolute cwd

def targetOf (cwd : Location) (plan : GenerationPlan) : HostPath := targetPath cwd plan.workspace

def apply (cwd : Location) (plan : GenerationPlan) (metadataRecord : Value) (fast : Bool) :
    FsProgram Outcome := do
  let target := targetOf cwd plan
  let staging := stagingPathFor target
  refuseExisting target
  refuseNested target target.properAncestors
  clearStaging staging
  createDirectories staging
  let outcome ← (build staging target plan metadataRecord fast).handle (abortWith staging)
  if target.hasParentPath then syncUnless fast target.parentPath else pure ()
  pure outcome

variable {fast : Bool} {staging : HostPath}

theorem syncUnless_building (path : HostPath) : (syncUnless fast path).CallsOnly Building := by
  unfold syncUnless
  split_ifs
  · trivial
  · exact ⟨trivial, fun _ ↦ trivial⟩

theorem applyStep_building (outcome : Outcome) (step : PlanStep) :
    (applyStep staging fast outcome step).CallsOnly Building := by
  unfold applyStep
  split_ifs
  · exact callsOnly_bind (createDirectories_building _) fun _ ↦ trivial
  · refine callsOnly_bind (writeFile_building _ _ _) fun _ ↦ ?_
    exact callsOnly_bind (syncUnless_building _) fun _ ↦ trivial

theorem writeRecord_building (record : Value) :
    (writeRecord staging fast record).CallsOnly Building :=
  callsOnly_bind (writeFile_building _ _ _) fun _ ↦ syncUnless_building _

theorem build_readless (target : HostPath) (plan : GenerationPlan) (metadataRecord : Value) :
    (build staging target plan metadataRecord fast).CallsOnly Readless := by
  refine callsOnly_bind ((callsOnly_foldlM applyStep_building _ _).mono Building.readless) fun _ ↦ ?_
  refine callsOnly_bind ((writeRecord_building _).mono Building.readless) fun _ ↦ ?_
  exact callsOnly_bind (rename_readless staging target) fun _ ↦ trivial

theorem refuseNested_readless (target : HostPath) (ancestors : List HostPath) :
    (refuseNested target ancestors).CallsOnly Readless := by
  induction ancestors with
  | nil => trivial
  | cons ancestor rest ih =>
    refine callsOnly_bind (exists_readless _) fun there ↦ ?_
    cases there with
    | false => exact ih
    | true => trivial

theorem abortWith_readless {α : Type} (error : EngineError) :
    (abortWith staging error : FsProgram α).CallsOnly Readless := by
  unfold abortWith
  refine callsOnly_bind (callsOnly_handle (removeAll_readless staging) fun _ ↦ ?_) fun _ ↦ ?_ <;> trivial

theorem apply_readless (cwd : Location) (plan : GenerationPlan) (metadataRecord : Value) :
    (apply cwd plan metadataRecord fast).CallsOnly Readless := by
  refine callsOnly_bind (callsOnly_bind (exists_readless _) fun there ↦ ?_) fun _ ↦ ?_
  · cases there <;> trivial
  refine callsOnly_bind (refuseNested_readless _ _) fun _ ↦ ?_
  refine callsOnly_bind (callsOnly_bind (exists_readless _) fun there ↦ ?_) fun _ ↦ ?_
  · cases there with
    | false => trivial
    | true => exact removeAll_readless _
  refine callsOnly_bind ((createDirectories_building _).mono Building.readless) fun _ ↦ ?_
  refine callsOnly_bind (callsOnly_handle (build_readless _ _ _) abortWith_readless) fun _ ↦ ?_
  split_ifs
  · exact callsOnly_bind ((syncUnless_building _).mono Building.readless) fun _ ↦ trivial
  · trivial

end TransactionService

end SquaredPg
