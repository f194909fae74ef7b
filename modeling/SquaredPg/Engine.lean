import SquaredPg.Generation
import SquaredPg.Registry
import SquaredPg.Verify

namespace SquaredPg

open Ascii Program

inductive LifecycleState
  | created | initializing | ready | operating | failed | shutdown | destroyed
  deriving DecidableEq

def LifecycleState.toString : LifecycleState → Bytes
  | created => ascii "created"
  | initializing => ascii "initializing"
  | ready => ascii "ready"
  | operating => ascii "operating"
  | failed => ascii "failed"
  | shutdown => ascii "shutdown"
  | destroyed => ascii "destroyed"

/-- `engine_version`, from the build's version file. -/
def engineVersion : Version := (Version.parse (ascii "0.1.0-alpha.1")).getD {}

structure EngineConfig where
  resourceRoots : List Bytes := []
  engineVersion : Version := {}
  strictRoots : Bool := false
  fastDurability : Bool := false

/-- `Engine::Impl`. -/
structure Engine where
  config : EngineConfig
  state : LifecycleState := .created
  locator : ServiceLocator := {}
  capabilities : List Capability := []
  index : ResourceIndex := {}
  descriptors : List OperationDescriptor := []
  operations : List Operation := []
  startupDiagnostics : List Diagnostic := []
  lastResult : OperationResult := {}

/-- What a call finds around the engine: the current directory, the resources below a root, and
the cartridges that can be opened. -/
structure Host where
  cwd : Location
  candidates : Bytes → Option (List Bytes)
  openEnvelope : Bytes → Except Bytes Envelope
  openRecord : ResourceRecord → Result Cartridge

abbrev EngineProgram (α : Type) := Program FsOp FsAnswer Empty α

def reported (program : FsProgram OperationResult) : EngineProgram OperationResult := do
  match ← attempt program with
  | .ok result => pure result
  | .error error => pure (.failed error)

namespace Engine

open FilesystemService MetadataService TransactionService

def create (config : EngineConfig) : Engine :=
  { config :=
      { config with
        engineVersion :=
          if config.engineVersion.same {} then SquaredPg.engineVersion else config.engineVersion } }

def byToken (a b : Capability) : Prop := List.compareLex compare a.token b.token ≠ .gt

instance : DecidableRel byToken := fun _ _ ↦ by unfold byToken; infer_instance

def byId (a b : OperationDescriptor) : Prop := List.compareLex compare a.id b.id ≠ .gt

instance : DecidableRel byId := fun _ _ ↦ by unfold byId; infer_instance

def registerCapabilities (engine : Engine) : Engine :=
  { engine with
    capabilities := (engine.capabilities ++ builtinCapabilities).insertionSort byToken }

def registerServices (engine : Engine) : Engine :=
  { engine with locator := coreServices.foldl .registerService engine.locator }

def registerOperations (engine : Engine) : Engine :=
  { engine with
    operations := engine.operations ++ builtinOperations
    descriptors :=
      (engine.descriptors ++ builtinOperations.map Operation.descriptor).insertionSort byId }

def findOperation (engine : Engine) (id : Bytes) : Option Operation :=
  engine.operations.find? fun operation ↦ operation.descriptor.id = id

section Handlers

variable (host : Host) (engine : Engine) (params : Value)

def resources : ResourceService := { index := engine.index, openRecord := host.openRecord }

def durability : Value :=
  .string (ascii (if engine.config.fastDurability then "fast" else "durable"))

def describe : OperationResult :=
  .ok (.object
    [(ascii "version", .string engine.config.engineVersion.toString),
      (ascii "state", .string engine.state.toString),
      (ascii "services", .strings engine.locator.names),
      (ascii "capabilities", .array (engine.capabilities.map Capability.toValue)),
      (ascii "resource_count", count engine.index.records.length),
      (ascii "durability", engine.durability)])

def listOperations : OperationResult :=
  .ok (.array (engine.descriptors.map OperationDescriptor.toValue))

def resourceListing (records : List ResourceRecord) : OperationResult :=
  .ok (.object [(ascii "resources", .array (records.map ResourceRecord.toPublicValue))])

def listResources : OperationResult :=
  let kindText := params.stringOr (ascii "kind") []
  if kindText = [] then resourceListing engine.index.records
  else
    match ResourceKind.fromString kindText with
    | none => .failed (makeError .validation "validation.parameter.invalid"
        (ascii "'" ++ kindText ++ ascii "' is not a resource kind"))
    | some kind => resourceListing (engine.index.ofKind kind)

def parameterEntry (spec : TemplateParameter) : Value :=
  .object
    ([(ascii "name", .string spec.name),
      (ascii "type", .string spec.type),
      (ascii "required", .boolean spec.required)] ++
    (spec.description.map fun text ↦ (ascii "description", Value.string text)).toList)

def templateMembers (resolved : ResolvedResource) : List (Bytes × Value) :=
  [(ascii "working_directory", .string (workingDirectory resolved)),
    (ascii "parameters", .array ((TemplateService.parameters resolved).map parameterEntry))]

def resolvedData (service : TypedService) (resolved : ResolvedResource) : Value :=
  let members :=
    [(ascii "entry_count", count resolved.cartridge.entries.length)] ++
    (if service = .template_ then templateMembers resolved else []) ++
    (if resolved.integrationAreas = [] then []
      else [(ascii "integration_areas", .strings resolved.integrationAreas)])
  members.foldl (fun data member ↦ data.set member.1 member.2) resolved.record.toPublicValue

/-- The handler that `resolve_op` makes for a kind of resource. -/
def resolveResource (service : TypedService) : OperationResult :=
  let id := params.stringOr (ascii "id") []
  match ResourceRef.parse id with
  | none => .failed (invalidReference "resource" id)
  | some ref =>
    let context : ResolutionContext :=
      { platforms := configStrings params (ascii "platforms")
        frameworkVersion := params.stringOr (ascii "framework") []
        templateId := (ResourceId.parse (params.stringOr (ascii "template") [])).getD .empty }
    match service.resolve (engine.resources host) engine.capabilities ref context with
    | .error error => .failed error
    | .ok (resolved, diagnostics) =>
      (OperationResult.ok (resolvedData service resolved)).withDiagnostics diagnostics

def validateConfig : OperationResult :=
  match validateConfiguration params with
  | .error error => .failed error
  | .ok _ => .ok (.boolean true)

def failure (failure : Failure) : OperationResult :=
  (OperationResult.failed failure.error).withDiagnostics failure.diagnostics

def projectData (set : ResolvedSet) : Value :=
  .object
    [(ascii "template", set.projectTemplate.record.toPublicValue),
      (ascii "kits", .array (set.kits.map fun kit ↦ kit.record.toPublicValue)),
      (ascii "working_directory", .string (workingDirectory set.projectTemplate))]

def resolveProject : OperationResult :=
  match resolveSet (engine.resources host) engine.capabilities engine.config.engineVersion params with
  | .error e => failure e
  | .ok (set, diagnostics) => (OperationResult.ok (projectData set)).withDiagnostics diagnostics

def planFor : Except Failure GenerationPlan :=
  SquaredPg.planFor (engine.resources host) engine.capabilities engine.config.engineVersion params

def planProject : OperationResult :=
  match engine.planFor host params with
  | .error e => failure e
  | .ok plan => (OperationResult.ok plan.toValue).withDiagnostics plan.diagnostics

def generatedData (plan : GenerationPlan) (outcome : Outcome) : Value :=
  .object
    [(ascii "workspace", .string plan.workspace),
      (ascii "working_directory", .string plan.workingDirectory),
      (ascii "files_written", count outcome.filesWritten),
      (ascii "directories_created", count outcome.directoriesCreated),
      (ascii "template", .string plan.templateRef.id.str),
      (ascii "kits", .strings (plan.kits.map fun ref ↦ ref.id.str)),
      (ascii "packages", .strings (plan.packages.map fun ref ↦ ref.id.str)),
      (ascii "metadata_file", .string kMetadataFile),
      (ascii "durability", engine.durability)]

def generatedReport (plan : GenerationPlan) (outcome : Outcome) : OperationResult :=
  ((OperationResult.ok (engine.generatedData plan outcome)).setMetadata
    (.object [(ascii "step_count", count plan.steps.length)])).withDiagnostics plan.diagnostics

def generateProject : EngineProgram OperationResult :=
  match engine.planFor host params with
  | .error e => pure (failure e)
  | .ok plan => do
    let record := buildRecord plan engine.config.engineVersion
    match ← attempt (apply host.cwd plan record engine.config.fastDurability) with
    | .error error => pure ((OperationResult.failed error).withDiagnostics plan.diagnostics)
    | .ok outcome => pure (engine.generatedReport plan outcome)

def workspaceInspect : FsProgram OperationResult := do
  let text ← readFile (TransactionService.recordOf (verifyRoot params))
  match jsonParse text with
  | .error e => fail e
  | .ok record => pure (.ok record)

def handle : Handler → EngineProgram OperationResult
  | .describe => pure engine.describe
  | .operations => pure engine.listOperations
  | .resourceList => pure (engine.listResources params)
  | .resolve service => pure (engine.resolveResource host params service)
  | .configValidate => pure (validateConfig params)
  | .projectResolve => pure (engine.resolveProject host params)
  | .projectPlan => pure (engine.planProject host params)
  | .projectGenerate => engine.generateProject host params
  | .workspaceVerify => reported (workspaceVerify params)
  | .workspaceInspect => reported (workspaceInspect params)

end Handlers

def answer (engine : Engine) (result : OperationResult) : OperationResult × Engine :=
  (result, { engine with lastResult := result })

def invalidState (operation message : Bytes) : EngineError :=
  { makeError .lifecycle "lifecycle.invalid_state" message with operation }

def serviceMissing (required : Bytes) : EngineError :=
  { makeError .internal "internal.service.missing"
      (ascii "required core service '" ++ required ++ ascii "' is not registered") with
    operation := ascii "engine.initialize" }

/-- What `Engine::initialize` does first. -/
def registered (engine : Engine) : Engine :=
  { engine with state := .initializing }.registerCapabilities.registerServices.registerOperations

def buildIndex (host : Host) (engine : Engine) : Result (ResourceIndex × List Diagnostic) :=
  SquaredPg.buildIndex
    (engine.config.resourceRoots.map fun path ↦ ⟨path, host.candidates path⟩) host.openEnvelope
    engine.config.engineVersion engine.config.strictRoots

def started (engine : Engine) (index : ResourceIndex) (diagnostics : List Diagnostic) : Engine :=
  { engine with index, startupDiagnostics := diagnostics, state := .ready }

def startedData (engine : Engine) : Value :=
  .object
    [(ascii "state", .string engine.state.toString),
      (ascii "resources", count engine.index.records.length),
      (ascii "operations", count engine.descriptors.length),
      (ascii "services", .strings engine.locator.names)]

/-- The rest of it: every core service has to be there, and the index has to be built. -/
def start (host : Host) (engine : Engine) : OperationResult × Engine :=
  match coreServices.find? fun required ↦ required ∉ engine.locator.names with
  | some required => { engine with state := .failed }.answer (.failed (serviceMissing required))
  | none =>
    match engine.buildIndex host with
    | .error error =>
      { engine with state := .failed }.answer
        ((OperationResult.failed error).setOperation (ascii "engine.initialize"))
    | .ok (index, diagnostics) =>
      let engine := engine.started index diagnostics
      engine.answer ((OperationResult.ok engine.startedData).withDiagnostics diagnostics)

def initialize_ (host : Host) (engine : Engine) : OperationResult × Engine :=
  if engine.state ≠ .created then
    engine.answer (.failed (invalidState (ascii "engine.initialize")
      (ascii "initialize is legal only from 'created'; the engine is '" ++ engine.state.toString ++
        ascii "'")))
  else engine.registered.start host

def unknownOperation (engine : Engine) (operation : Bytes) : EngineError :=
  { makeError .validation "validation.operation.unknown"
      (ascii "no operation named '" ++ operation ++ ascii "'") with
    operation
    recoverable := true
    diagnostics := .object
      [(ascii "known_operations", .strings (engine.descriptors.map OperationDescriptor.id))] }

/-- The rejection rules of `execute`: the lifecycle first, then the name, then the parameters. -/
def admission (engine : Engine) (operation : Bytes) (parameters : Value) : Result Operation :=
  if engine.state ≠ .ready then
    .error (invalidState operation
      (ascii "operations execute only from 'ready'; the engine is '" ++ engine.state.toString ++
        ascii "'"))
  else
    match engine.findOperation operation with
    | none => .error (engine.unknownOperation operation)
    | some found => (validateParameters found.descriptor parameters).map fun _ ↦ found

def execute (host : Host) (operation : Bytes) (parameters : Value) (engine : Engine) :
    EngineProgram (OperationResult × Engine) :=
  match engine.admission operation parameters with
  | .error error => pure (engine.answer (.failed error))
  | .ok found => do
    let engine := { engine with state := .operating }
    let result ← engine.handle host parameters found.handler
    pure ({ engine with state := .ready }.answer (result.setOperation operation))

/-- `Engine::shutdown`: its result is not kept. -/
def shutdown (engine : Engine) : OperationResult × Engine :=
  if engine.state = .destroyed then
    (.failed (invalidState (ascii "engine.shutdown") (ascii "the engine is already destroyed")), engine)
  else
    let engine := { engine with state := .shutdown }
    let result := OperationResult.ok
      (.object [(ascii "released_services", .strings engine.locator.names)])
    (result, { engine with state := .destroyed })

end Engine

end SquaredPg
