import SquaredPg.Paths
import SquaredPg.Resolve
import SquaredPg.Substitute

namespace SquaredPg

open Ascii

inductive StepAction
  | createDirectory | writeFile | copyEntry
  deriving DecidableEq

inductive GenerationPhase
  | workspace | templateInstantiate | kitApply | packageMaterialize | frameworkIntegrate
  | assetMaterialize | buildEmit | metadataWrite
  deriving DecidableEq

namespace GenerationPhase

def ordinal : GenerationPhase → ℕ
  | workspace => 0
  | templateInstantiate => 1
  | kitApply => 2
  | packageMaterialize => 3
  | frameworkIntegrate => 4
  | assetMaterialize => 5
  | buildEmit => 6
  | metadataWrite => 7

def toString : GenerationPhase → Bytes
  | workspace => ascii "workspace"
  | templateInstantiate => ascii "template.instantiate"
  | kitApply => ascii "kit.apply"
  | packageMaterialize => ascii "package.materialize"
  | frameworkIntegrate => ascii "framework.integrate"
  | assetMaterialize => ascii "asset.materialize"
  | buildEmit => ascii "build.emit"
  | metadataWrite => ascii "metadata.write"

end GenerationPhase

structure PlanStep where
  action : StepAction := .writeFile
  phase : GenerationPhase := .workspace
  path : Bytes
  ownership : OwnershipClass := .seeded
  origin : ResourceId := .empty
  originVersion : Bytes := []
  sourceEntry : Bytes := []
  content : Bytes := []
  executable : Bool := false
  deriving DecidableEq

def PlanStep.isDirectory (step : PlanStep) : Bool := step.action = .createDirectory

structure GenerationPlan where
  projectName : Bytes
  workspace : Bytes
  workingDirectory : Bytes
  templateRef : ResourceRef
  templateVersion : Bytes
  kits : List ResourceRef
  kitVersions : List Bytes
  packages : List ResourceRef
  packageVersions : List Bytes
  assets : List ResourceRef
  platforms : List Bytes
  frameworkVersion : Bytes
  steps : List PlanStep
  diagnostics : List Diagnostic

structure ResolvedSet where
  projectTemplate : ResolvedResource
  kits : List ResolvedResource := []
  packages : List ResolvedResource := []
  assets : List ResolvedResource := []
  platforms : List Bytes := []

def workingDirectory (resource : ResolvedResource) : Bytes :=
  match (manifestExtension resource.cartridge.manifest "working_directory").asString with
  | some text => if text ≠ [] then normalizeRelative text else ascii "sq_app"
  | none => ascii "sq_app"

def Value.binds (parameters : Value) (name : Bytes) : Bool :=
  (parameters.find name).any fun value ↦ !value.isNull

def putIfAbsent (key value : Bytes) (parameters : Value) : Value :=
  if parameters.binds key then parameters else parameters.set key (.string value)

def declareLiteral (parameters entry : Value) : Value :=
  let name := entry.stringOr (ascii "name") []
  if name = [] ∨ parameters.binds name then parameters
  else
    match entry.find (ascii "default") with
    | some literal => parameters.set name literal
    | none => parameters

def declareFrom (parameters entry : Value) : Value :=
  let name := entry.stringOr (ascii "name") []
  if name = [] ∨ parameters.binds name then parameters
  else
    match (entry.find (ascii "default_from")).bind Value.asString with
    | some source =>
      match parameters.find source with
      | some value => parameters.set name value
      | none => parameters
    | none => parameters

/-- `apply_declared_defaults`: the literals in one pass, the references in a second. -/
def applyDeclaredDefaults (parameters : Value) (projectTemplate : ResolvedResource) : Value :=
  match (manifestExtension projectTemplate.cartridge.manifest "parameters").asArray with
  | none => parameters
  | some entries => entries.foldl declareFrom (entries.foldl declareLiteral parameters)

def effectiveParameters (projectTemplate : ResolvedResource) (config : Value)
    (workingDirectory : Bytes) (engineVersion : Version) (kitIds : List Bytes) : Value :=
  let supplied :=
    match config.find (ascii "parameters") with
    | some value => if value.isObject then value else .object []
    | none => .object []
  let name := config.stringOr (ascii "name") []
  let joined := joinWith (ascii ", ") kitIds
  let parameters := supplied
    |> putIfAbsent (ascii "project_name") name
    |> putIfAbsent (ascii "namespace") name
    |> putIfAbsent (ascii "working_directory") workingDirectory
    |> putIfAbsent (ascii "generator_version") engineVersion.toString
    |> putIfAbsent (ascii "template_id") projectTemplate.id.str
    |> putIfAbsent (ascii "template_version") projectTemplate.version
    |> putIfAbsent (ascii "framework_version") (config.stringOr (ascii "framework") (ascii "0.0.0"))
    |> putIfAbsent (ascii "kit_list") (if joined = [] then ascii "none" else joined)
  applyDeclaredDefaults parameters projectTemplate

structure Contribution where
  resource : ResolvedResource
  phase : GenerationPhase

def ResolvedSet.contributions (set : ResolvedSet) : List Contribution :=
  ⟨set.projectTemplate, .templateInstantiate⟩ ::
    (set.kits.map fun kit ↦ ⟨kit, .kitApply⟩) ++
      set.packages.map fun package ↦ ⟨package, .packageMaterialize⟩

def ResolvedSet.parameters (set : ResolvedSet) (config : Value) (engineVersion : Version) : Value :=
  effectiveParameters set.projectTemplate config (workingDirectory set.projectTemplate)
    engineVersion (set.kits.map fun kit ↦ kit.id.str)

/-- What `build_plan` has gathered: the steps, the resource behind each claimed path with the
newest claim first, the directories planned so far, and the diagnostics. -/
structure Draft where
  steps : List PlanStep := []
  claimed : List (Bytes × Bytes) := []
  directories : List Bytes := []
  diagnostics : List Diagnostic

structure Failure where
  error : EngineError
  diagnostics : List Diagnostic

def directoryStep (phase : GenerationPhase) (path : Bytes) : PlanStep :=
  { action := .createDirectory, phase, path }

def claimDirectory (phase : GenerationPhase) (draft : Draft) (directory : Bytes) : Draft :=
  if directory ∈ draft.directories then draft
  else
    { draft with
      directories := directory :: draft.directories
      steps := draft.steps ++ [directoryStep phase directory] }

def claimDirectories (draft : Draft) (path : Bytes) (phase : GenerationPhase) : Draft :=
  (ancestorDirectories path).foldl (claimDirectory phase) draft

/-- The name of an entry below the payload root, `none` for what is no payload. -/
def payloadName (resource : ResolvedResource) (entry : Bytes) : Option Bytes :=
  if metaDir.isPrefixOf entry then none
  else if resource.treePrefix ≠ [] ∧ !resource.treePrefix.isPrefixOf entry then none
  else
    let relative := entry.drop resource.treePrefix.length
    if relative = [] ∨ relative.getLast? = some slash then none else some relative

structure Policy where
  executableGlobs : List Bytes
  overrides : List Bytes
  processor : Bytes

def contributionPolicy (resource : ResolvedResource) : Policy :=
  let extension := manifestExtension resource.cartridge.manifest
  { executableGlobs := stringList (extension "executable")
    overrides := stringList (extension "overrides")
    processor := (extension "processor").asString.getD (ascii "substitute") }

def unknownProcessor (resource : ResolvedResource) (processor : Bytes) : EngineError :=
  { makeError .capability "capability.unsatisfied"
      (ascii "resource " ++ resource.id.str ++ ascii " requests template processor '" ++ processor ++
        ascii "', which this engine does not provide") with
    resource := resource.id.str
    recoverable := true }

def unsafePath (resource : ResolvedResource) (entry : Bytes) : EngineError :=
  { makeError .validation "validation.path.unsafe"
      (ascii "resource entry '" ++ entry ++ ascii "' does not name a path inside the workspace") with
    resource := resource.id.str
    path := entry }

def pathConflict (resource : ResolvedResource) (path first : Bytes) : EngineError :=
  { makeError .compatibility "kit.integration_point.conflict"
      (ascii "two resources contribute the same path: " ++ path) with
    path := path
    resource := resource.id.str
    recoverable := true
    diagnostics := .object [(ascii "first", .string first),
      (ascii "second", .string resource.id.str)] }

def unreadablePayload (resource : ResolvedResource) (entry message : Bytes) : EngineError :=
  { makeError .resource "resource.payload.unreadable"
      (ascii "could not read '" ++ entry ++ ascii "': " ++ message) with
    resource := resource.id.str
    path := entry }

def generatedInside (resource : ResolvedResource) (path workingDirectory : Bytes) : EngineError :=
  { makeError .validation "template.ownership.invalid"
      (ascii "generated-class path '" ++ path ++
        ascii "' falls inside the user working directory '" ++ workingDirectory ++ ascii "'") with
    resource := resource.id.str
    path := path }

def binaryCopied (resource : ResolvedResource) (path : Bytes) : Diagnostic :=
  { severity := .info
    message := ascii "binary payload copied without substitution"
    resource := resource.id.str
    path := path }

/-- The path lies at or below a directory, as the builder tests it. -/
def liesUnder (directory path : Bytes) : Bool :=
  path = directory ∨ (directory ++ [slash]).isPrefixOf path

def refuseIf (p : Prop) [Decidable p] (failure : Failure) : Except Failure Unit :=
  if p then .error failure else .ok ()

/-- A path that an earlier contribution claimed is refused, unless the resource overrides it. -/
def checkCollision (resource : ResolvedResource) (policy : Policy) (draft : Draft) (path : Bytes) :
    Except Failure Unit :=
  match draft.claimed.lookup path with
  | none => .ok ()
  | some first =>
    refuseIf (path ∉ policy.overrides) ⟨pathConflict resource path first, draft.diagnostics⟩

def payloadContent (resource : ResolvedResource) (policy : Policy) (parameters : Value)
    (entry payload : Bytes) : Result Bytes :=
  if policy.processor = ascii "substitute" ∧ looksTextual payload then
    (substitute payload parameters entry).mapError fun error ↦
      { error with resource := resource.id.str }
  else .ok payload

def copyDiagnostics (resource : ResolvedResource) (policy : Policy) (path payload : Bytes) :
    List Diagnostic :=
  if policy.processor = ascii "substitute" ∧ looksTextual payload = false then
    [binaryCopied resource path]
  else []

def payloadStep (contribution : Contribution) (policy : Policy) (ownership : OwnershipClass)
    (entry path content : Bytes) : PlanStep :=
  { action := .writeFile
    phase := contribution.phase
    path
    ownership
    origin := contribution.resource.id
    originVersion := contribution.resource.version
    sourceEntry := entry
    content
    executable := policy.executableGlobs.any fun pattern ↦ globMatch pattern path }

def addPayload (draft : Draft) (step : PlanStep) : Draft :=
  let draft := claimDirectories draft step.path step.phase
  { draft with
    steps := draft.steps ++ [step]
    claimed := (step.path, step.origin.str) :: draft.claimed }

def contributePath (contribution : Contribution) (policy : Policy) (parameters : Value)
    (workingDirectory : Bytes) (draft : Draft) (entry path : Bytes) : Except Failure Draft := do
  let resource := contribution.resource
  refuseIf (path = []) ⟨unsafePath resource entry, draft.diagnostics⟩
  checkCollision resource policy draft path
  let payload ← (resource.cartridge.read entry).mapError fun message ↦
    ⟨unreadablePayload resource entry message, draft.diagnostics⟩
  let content ← (payloadContent resource policy parameters entry payload).mapError fun error ↦
    ⟨error, draft.diagnostics⟩
  let classified := classifyPath resource.ownership path
  let diagnostics :=
    draft.diagnostics ++ copyDiagnostics resource policy path payload ++ classified.2
  refuseIf (classified.1 = .generated ∧ workingDirectory ≠ [] ∧ liesUnder workingDirectory path)
    ⟨generatedInside resource path workingDirectory, diagnostics⟩
  pure (addPayload { draft with diagnostics }
    (payloadStep contribution policy classified.1 entry path content))

def contributeEntry (contribution : Contribution) (policy : Policy) (parameters : Value)
    (workingDirectory : Bytes) (draft : Draft) (entry : Bytes) : Except Failure Draft :=
  match payloadName contribution.resource entry with
  | none => .ok draft
  | some relative => do
    let expanded ← (substitute relative parameters entry).mapError fun error ↦
      ⟨{ error with resource := contribution.resource.id.str }, draft.diagnostics⟩
    contributePath contribution policy parameters workingDirectory draft entry
      (normalizeRelative expanded)

def contribute (parameters : Value) (workingDirectory : Bytes) (draft : Draft)
    (contribution : Contribution) : Except Failure Draft :=
  let policy := contributionPolicy contribution.resource
  if policy.processor ≠ ascii "copy" ∧ policy.processor ≠ ascii "substitute" then
    .error ⟨unknownProcessor contribution.resource policy.processor, draft.diagnostics⟩
  else
    contribution.resource.cartridge.entries.foldlM
      (contributeEntry contribution policy parameters workingDirectory) draft

def noFiles : Diagnostic :=
  { severity := .warning
    message := ascii "the resolved resource set contributes no files" }

def addWorkingDirectory (workingDirectory : Bytes) (draft : Draft) : List PlanStep :=
  if workingDirectory ≠ [] ∧ workingDirectory ∉ draft.directories then
    directoryStep .workspace workingDirectory :: draft.steps
  else draft.steps

def stepBefore (a b : PlanStep) : Bool :=
  if a.phase ≠ b.phase then a.phase.ordinal < b.phase.ordinal
  else if a.isDirectory ≠ b.isDirectory then a.isDirectory
  else List.compareLex compare a.path b.path = .lt

def sortSteps (steps : List PlanStep) : List PlanStep :=
  steps.insertionSort fun a b ↦ stepBefore b a = false

def buildPlan (set : ResolvedSet) (config : Value) (engineVersion : Version)
    (diagnostics : List Diagnostic) : Except Failure GenerationPlan := do
  let workingDirectory := workingDirectory set.projectTemplate
  let parameters := set.parameters config engineVersion
  let draft ← set.contributions.foldlM (contribute parameters workingDirectory) { diagnostics }
  let diagnostics := if draft.claimed = [] then draft.diagnostics ++ [noFiles] else draft.diagnostics
  pure
    { projectName := config.stringOr (ascii "name") []
      workspace := config.stringOr (ascii "output") []
      workingDirectory
      frameworkVersion := config.stringOr (ascii "framework") []
      platforms := set.platforms
      templateRef := ⟨set.projectTemplate.id, []⟩
      templateVersion := set.projectTemplate.version
      kits := set.kits.map fun kit ↦ ⟨kit.id, []⟩
      kitVersions := set.kits.map fun kit ↦ kit.version
      packages := set.packages.map fun package ↦ ⟨package.id, []⟩
      packageVersions := set.packages.map fun package ↦ package.version
      assets := set.assets.map fun asset ↦ ⟨asset.id, []⟩
      steps := sortSteps (addWorkingDirectory workingDirectory draft)
      diagnostics }

end SquaredPg
