import SquaredPg.Operation
import SquaredPg.Requirements

namespace SquaredPg

open Ascii

def capability (token version summary : String) : Capability :=
  { token := ascii token
    version := (Version.parse (ascii version)).getD {}
    summary := ascii summary }

def builtinCapabilities : List Capability :=
  [capability "capability.template.copy" "1.0.0" "direct materialization with no substitution",
    capability "capability.template.substitute" "1.0.0"
      "\x7b\x7b parameter \x7d\x7d substitution in text payloads",
    capability "capability.archive.zip" "1.0.0" "read .sq cartridge archives",
    capability "capability.archive.exploded" "1.0.0" "read exploded cartridge directories",
    capability "capability.resource.index" "1.0.0" "manifest-identity resource index",
    capability "capability.project.plan" "1.0.0" "produce a generation plan without mutation",
    capability "capability.project.generate" "1.0.0" "transactional new-workspace generation",
    capability "capability.transaction.rename" "1.0.0" "same-filesystem staging landed by one rename",
    capability "capability.metadata.provenance" "1.0.0" "workspace metadata with a provenance table"]

/-- `ServiceLocator` by the names it knows. -/
structure ServiceLocator where
  names : List Bytes := []
  distinct : names.Nodup := by exact List.nodup_nil

def ServiceLocator.registerService (locator : ServiceLocator) (name : Bytes) : ServiceLocator :=
  if h : name ∈ locator.names then locator
  else
    { names := locator.names ++ [name]
      distinct := by simpa using List.Nodup.concat h locator.distinct }

def coreServices : List Bytes :=
  ["filesystem", "resource", "template", "kit", "package", "asset", "validation", "metadata",
    "project", "transaction"].map ascii

/-- The handlers, by name: a record of functions on the engine could not be a part of it. -/
inductive Handler
  | describe | operations | resourceList | resolve (service : TypedService) | configValidate
  | projectResolve | projectPlan | projectGenerate | workspaceVerify | workspaceInspect
  deriving DecidableEq

structure Operation where
  descriptor : OperationDescriptor
  handler : Handler
  deriving DecidableEq

def param (name : String) (type : ParameterType) (required : Bool) (summary : String) :
    ParameterSpec :=
  { name := ascii name, type, required, summary := ascii summary }

/-- The services, the capabilities and the error codes of an operation are lists of names. -/
def operation (id summary : String) (parameters : List ParameterSpec)
    (services capabilities : List String) (mutates : Bool) (errors : List String)
    (handler : Handler) : Operation :=
  { descriptor :=
      { id := ascii id
        summary := ascii summary
        parameters
        requiredServices := services.map ascii
        requiredCapabilities := capabilities.map ascii
        mutatesWorkspace := mutates
        errorCodes := errors.map ascii }
    handler }

def resolveOperation (id summary : String) (service : TypedService) (name : String) : Operation :=
  operation id summary
    [param "id" .identifier true "resource reference",
      param "platforms" .array false "target platform set",
      param "framework" .string false "framework version",
      param "template" .identifier false "template the resource must be compatible with"]
    [name] ["capability.resource.index"] false
    [name ++ ".not_found", name ++ ".version.unsatisfiable"] (.resolve service)

def generationParameters : List ParameterSpec :=
  [param "name" .string true "project name; a C identifier",
    param "output" .path true "workspace location",
    param "template" .identifier true "template reference",
    param "kits" .array false "kit references, applied in order",
    param "packages" .array false "package references",
    param "assets" .array false "asset bundle references",
    param "platforms" .array false "target platform set",
    param "framework" .string false "Squared framework version",
    param "parameters" .object false "template parameter values"]

def workspaceParameter : ParameterSpec := param "workspace" .path true "workspace location"

def builtinOperations : List Operation :=
  [operation "engine.describe"
      "engine version, lifecycle state, registered services and capabilities" [] [] [] false
      ["lifecycle.invalid_state"] .describe,
    operation "engine.operations" "enumerate the operation registry" [] [] [] false [] .operations,
    operation "resource.list" "list indexed resources, optionally filtered by kind"
      [param "kind" .string false "template | kit | package | asset | plugin"] ["resource"]
      ["capability.resource.index"] false ["validation.parameter.invalid"] .resourceList,
    resolveOperation "template.resolve" "resolve a template by identity" .template_ "template",
    resolveOperation "kit.resolve" "resolve a kit by identity" .kit "kit",
    resolveOperation "package.resolve" "resolve a package by identity" .package "package",
    resolveOperation "asset.resolve" "resolve an asset bundle by identity" .asset "asset",
    operation "config.validate" "validate a generation configuration without resolving anything"
      generationParameters ["validation"] [] false
      ["configuration.input.missing", "configuration.identity.invalid",
        "configuration.name.invalid"] .configValidate,
    operation "project.resolve" "resolve and cross-validate the complete resource set (phases 2-6)"
      generationParameters ["template", "kit", "package", "asset", "validation"]
      ["capability.resource.index"] false
      ["template.not_found", "kit.compatibility.template", "kit.integration_point.conflict"]
      .projectResolve,
    operation "project.plan" "produce the generation plan; creates nothing" generationParameters
      ["template", "kit", "project", "validation"] ["capability.project.plan"] false
      ["template.parameter.missing", "template.ownership.invalid"] .projectPlan,
    operation "project.generate" "resolve, plan and generate a new workspace inside a transaction"
      generationParameters
      ["template", "kit", "project", "validation", "transaction", "metadata", "filesystem"]
      ["capability.project.generate", "capability.transaction.rename"] true
      ["filesystem.workspace.exists", "filesystem.workspace.nested", "transaction.commit_failed",
        "filesystem.space"] .projectGenerate,
    operation "workspace.verify" "check an existing workspace against its provenance record"
      [workspaceParameter] ["filesystem", "metadata"] ["capability.metadata.provenance"] false
      ["filesystem.read", "configuration.json.malformed"] .workspaceVerify,
    operation "workspace.inspect" "read the metadata record of an existing workspace"
      [workspaceParameter] ["filesystem", "metadata"] ["capability.metadata.provenance"] false
      ["filesystem.read", "configuration.json.malformed"] .workspaceInspect]

end SquaredPg
