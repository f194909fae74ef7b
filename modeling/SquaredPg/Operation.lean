import SquaredPg.Transaction

namespace SquaredPg

open Ascii

def Engine.count (n : ℕ) : Value := .integer (Int64.ofNat n)

def given (key : String) (text : Bytes) : List (Bytes × Value) :=
  if text = [] then [] else [(ascii key, .string text)]

def Severity.toString : Severity → Bytes
  | info => ascii "info"
  | warning => ascii "warning"
  | error => ascii "error"

def Diagnostic.toValue (diagnostic : Diagnostic) : Value :=
  .object
    ([(ascii "severity", .string diagnostic.severity.toString),
      (ascii "message", .string diagnostic.message)] ++
    given "resource" diagnostic.resource ++ given "path" diagnostic.path)

def StepAction.toString : StepAction → Bytes
  | createDirectory => ascii "create_directory"
  | writeFile => ascii "write_file"
  | copyEntry => ascii "copy_entry"

def PlanStep.toValue (step : PlanStep) : Value :=
  .object
    ([(ascii "action", .string step.action.toString),
      (ascii "phase", .string step.phase.toString),
      (ascii "path", .string step.path),
      (ascii "ownership", .string step.ownership.toString)] ++
    given "origin" step.origin.str ++ given "origin_version" step.originVersion ++
    (if step.isDirectory then [] else [(ascii "bytes", Engine.count step.content.length)]) ++
    (if step.executable then [(ascii "executable", .boolean true)] else []))

def GenerationPlan.toValue (plan : GenerationPlan) : Value :=
  .object
    [(ascii "project_name", .string plan.projectName),
      (ascii "workspace", .string plan.workspace),
      (ascii "working_directory", .string plan.workingDirectory),
      (ascii "template", .string plan.templateRef.id.str),
      (ascii "template_version", .string plan.templateVersion),
      (ascii "kits", MetadataService.resourceEntries plan.kits plan.kitVersions),
      (ascii "packages", MetadataService.resourceEntries plan.packages plan.packageVersions),
      (ascii "assets", .strings (plan.assets.map ResourceRef.toString)),
      (ascii "platforms", .strings plan.platforms),
      (ascii "framework_version", .string plan.frameworkVersion),
      (ascii "steps", .array (plan.steps.map PlanStep.toValue)),
      (ascii "step_count", Engine.count plan.steps.length),
      (ascii "diagnostics", .array (plan.diagnostics.map Diagnostic.toValue))]

/-- `to_public_value`: the location stays inside the engine. -/
def ResourceRecord.toPublicValue (record : ResourceRecord) : Value :=
  .object
    ([(ascii "id", .string record.id.str),
      (ascii "kind", .string record.kind.toString),
      (ascii "version", .string record.version.toString)] ++
    given "title" record.title ++ given "description" record.description)

def Capability.toValue (capability : Capability) : Value :=
  .object
    [(ascii "token", .string capability.token),
      (ascii "version", .string capability.version.toString),
      (ascii "summary", .string capability.summary)]

inductive Status
  | success | warning | failure | cancelled
  deriving DecidableEq

structure OperationResult where
  status : Status := .success
  data : Value := .null
  metadata : Value := .null
  diagnostics : List Diagnostic := []
  warnings : List Diagnostic := []
  errors : List EngineError := []

namespace OperationResult

def succeeded (result : OperationResult) : Bool :=
  result.status = .success ∨ result.status = .warning

def ok (data : Value) : OperationResult := { status := .success, data }

def failed (error : EngineError) : OperationResult := { status := .failure, errors := [error] }

def setMetadata (result : OperationResult) (metadata : Value) : OperationResult :=
  { result with metadata }

def addDiagnostic (result : OperationResult) (diagnostic : Diagnostic) : OperationResult :=
  { result with diagnostics := result.diagnostics ++ [diagnostic] }

def addWarning (result : OperationResult) (warning : Diagnostic) : OperationResult :=
  { result with
    warnings := result.warnings ++ [warning]
    status := if result.status = .success then .warning else result.status }

/-- `set_operation`: names the operation in the errors that name none. -/
def setOperation (result : OperationResult) (operation : Bytes) : OperationResult :=
  { result with errors := result.errors.map fun error ↦
      if error.operation = [] then { error with operation } else error }

def withDiagnostics (result : OperationResult) (diagnostics : List Diagnostic) : OperationResult :=
  diagnostics.foldl (fun result diagnostic ↦
    if diagnostic.severity = .warning then result.addWarning diagnostic
    else result.addDiagnostic diagnostic) result

variable {result : OperationResult} {diagnostics : List Diagnostic} {error : EngineError}

@[simp] theorem succeeded_ok (data : Value) : (ok data).succeeded = true := rfl

@[simp] theorem succeeded_failed : (failed error).succeeded = false := rfl

theorem succeeded_addWarning (warning : Diagnostic) :
    (result.addWarning warning).succeeded = result.succeeded := by
  cases h : result.status <;> simp [addWarning, succeeded, h]

@[simp] theorem succeeded_withDiagnostics :
    (result.withDiagnostics diagnostics).succeeded = result.succeeded := by
  induction diagnostics generalizing result with
  | nil => rfl
  | cons diagnostic diagnostics ih =>
    have hstep : (if diagnostic.severity = .warning then result.addWarning diagnostic
        else result.addDiagnostic diagnostic).succeeded = result.succeeded := by
      split
      · exact succeeded_addWarning diagnostic
      · rfl
    rw [withDiagnostics, List.foldl_cons, ← withDiagnostics, ih, hstep]

theorem foldl_addDiagnostic :
    diagnostics.foldl addDiagnostic result =
      { result with diagnostics := result.diagnostics ++ diagnostics } := by
  induction diagnostics generalizing result with
  | nil => simp
  | cons diagnostic diagnostics ih => simp [ih, addDiagnostic]

end OperationResult

inductive ParameterType
  | string | identifier | path | boolean | integer | object | array
  deriving DecidableEq

def ParameterType.toString : ParameterType → Bytes
  | string => ascii "string"
  | identifier => ascii "identifier"
  | path => ascii "path"
  | boolean => ascii "boolean"
  | integer => ascii "integer"
  | object => ascii "object"
  | array => ascii "array"

structure ParameterSpec where
  name : Bytes
  type : ParameterType
  required : Bool
  summary : Bytes
  deriving DecidableEq

def ParameterSpec.toValue (spec : ParameterSpec) : Value :=
  .object
    [(ascii "name", .string spec.name),
      (ascii "type", .string spec.type.toString),
      (ascii "required", .boolean spec.required),
      (ascii "summary", .string spec.summary)]

structure OperationDescriptor where
  id : Bytes
  summary : Bytes
  parameters : List ParameterSpec
  requiredServices : List Bytes
  requiredCapabilities : List Bytes
  mutatesWorkspace : Bool
  errorCodes : List Bytes
  deriving DecidableEq

def OperationDescriptor.toValue (descriptor : OperationDescriptor) : Value :=
  .object
    [(ascii "id", .string descriptor.id),
      (ascii "summary", .string descriptor.summary),
      (ascii "parameters", .array (descriptor.parameters.map ParameterSpec.toValue)),
      (ascii "required_services", .strings descriptor.requiredServices),
      (ascii "required_capabilities", .strings descriptor.requiredCapabilities),
      (ascii "mutates_workspace", .boolean descriptor.mutatesWorkspace),
      (ascii "error_codes", .strings descriptor.errorCodes)]

/-- `type_matches`: an empty table passes for an object and for an array. -/
def typeMatches (expected : ParameterType) (value : Value) : Bool :=
  match expected with
  | .string => value.asString.isSome
  | .identifier => value.asString.isSome
  | .path => value.asString.isSome
  | .boolean => value.asBool.isSome
  | .integer => value.asInt.isSome
  | .object => value.isObject || value.asArray.any List.isEmpty
  | .array => value.asArray.isSome || value.asObject.any List.isEmpty

def lacksParameter (params : Value) (spec : ParameterSpec) : Bool :=
  spec.required && !params.binds spec.name

def typeError (params : Value) (spec : ParameterSpec) : Option Value :=
  match params.find spec.name with
  | none => none
  | some supplied =>
    if supplied.isNull ∨ typeMatches spec.type supplied then none
    else some (.object
      [(ascii "parameter", .string spec.name),
        (ascii "expected", .string spec.type.toString),
        (ascii "actual", .string supplied.kindName)])

/-- `validate_parameters`: one error that names all that is missing or of another type. -/
def validateParameters (descriptor : OperationDescriptor) (params : Value) : Result Unit :=
  let missing := (descriptor.parameters.filter (lacksParameter params)).map ParameterSpec.name
  let typeErrors := descriptor.parameters.filterMap (typeError params)
  if missing = [] ∧ typeErrors.isEmpty then .ok ()
  else .error
    { makeError .validation "validation.parameter.invalid"
        (ascii "one or more operation parameters are missing or ill-typed") with
      operation := descriptor.id
      recoverable := true
      diagnostics := .object [(ascii "missing", .strings missing),
        (ascii "type_errors", .array typeErrors)] }

end SquaredPg
