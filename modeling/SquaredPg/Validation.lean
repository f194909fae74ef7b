import SquaredPg.Plan
import SquaredPg.ResolveServices
import Mathlib.Data.List.Dedup

namespace SquaredPg

open Ascii

def identifierLike (text : Bytes) : Bool :=
  text.head?.any (fun c ↦ isLetter c || c == underscore) &&
    text.all fun c ↦ isLetter c || isDigit c || c == underscore

def javaPackageLike (text : Bytes) : Bool :=
  text ≠ [] ∧ (text.splitOn dot).all identifierLike ∧ 2 ≤ (text.splitOn dot).length

/-- A text that is there and not empty, as `require` asks for it. -/
def supplies (config : Value) (key : Bytes) : Bool := config.stringOr key [] ≠ []

def missingInputs (missing : List Bytes) : EngineError :=
  { makeError .configuration "configuration.input.missing"
      (ascii "the generation request is missing required inputs") with
    recoverable := true
    diagnostics := .object [(ascii "missing", .strings missing)] }

def invalidName (name : Bytes) : EngineError :=
  { makeError .configuration "configuration.name.invalid"
      (ascii "project name '" ++ name ++ ascii ("' must be a C identifier: letters, digits and " ++
        "underscore, not starting with a digit")) with
    recoverable := true }

def invalidTemplate (ref : Bytes) : EngineError :=
  { makeError .configuration "configuration.identity.invalid"
      (ascii "template reference '" ++ ref ++ ascii "' is not a valid resource reference") with
    recoverable := true }

def invalidList (key : Bytes) : EngineError :=
  { makeError .configuration "configuration.type.invalid"
      (key ++ ascii " must be an array of resource references") with
    recoverable := true }

def invalidItem (key : Bytes) (item : Value) : EngineError :=
  { makeError .configuration "configuration.identity.invalid"
      (ascii "'" ++ item.asString.getD (ascii "<non-string>") ++ ascii "' in " ++ key ++
        ascii " is not a valid resource reference") with
    recoverable := true }

def invalidFramework (framework : Bytes) : EngineError :=
  { makeError .framework "framework.version.invalid"
      (ascii "framework version '" ++ framework ++ ascii "' is not valid SemVer") with
    recoverable := true }

def refuseFirst {α ε : Type} (offenders : List α) (error : α → ε) : Except ε Unit :=
  match offenders with
  | [] => .ok ()
  | offender :: _ => .error (error offender)

def namesResource (item : Value) : Bool :=
  item.asString.any fun text ↦ (ResourceRef.parse text).isSome

def checkList (config : Value) (key : Bytes) : Result Unit :=
  match config.find key with
  | none => .ok ()
  | some list =>
    if list.isNull then .ok ()
    else
      match list.asArray with
      | none => .error (invalidList key)
      | some items => refuseFirst (items.filter fun item ↦ !namesResource item) (invalidItem key)

def validateConfiguration (config : Value) : Result Unit := do
  let missing := [ascii "name", ascii "output", ascii "template"].filter fun key ↦
    !supplies config key
  ensure (missing = []) (missingInputs missing)
  let name := config.stringOr (ascii "name") []
  ensure (identifierLike name) (invalidName name)
  let ref := config.stringOr (ascii "template") []
  ensure ((ResourceRef.parse ref).isSome) (invalidTemplate ref)
  checkList config (ascii "kits")
  checkList config (ascii "packages")
  checkList config (ascii "assets")
  let framework := config.stringOr (ascii "framework") []
  ensure (framework = [] ∨ (Version.parse framework).isSome) (invalidFramework framework)

structure TemplateParameter where
  name : Bytes
  type : Bytes := ascii "string"
  required : Bool := false
  description : Option Bytes := none
  defaultValue : Option Value := none
  defaultFrom : Option Bytes := none

def TemplateParameter.ofValue (item : Value) : Option TemplateParameter :=
  let name := item.stringOr (ascii "name") []
  if name = [] then none
  else some
    { name
      type := item.stringOr (ascii "type") (ascii "string")
      required := ((item.find (ascii "required")).bind Value.asBool).getD false
      description := (item.find (ascii "description")).bind Value.asString
      defaultValue := item.find (ascii "default")
      defaultFrom := (item.find (ascii "default_from")).bind Value.asString }

def TemplateService.parameters (resource : ResolvedResource) : List TemplateParameter :=
  let declared := manifestExtension resource.cartridge.manifest "parameters"
  (declared.asArray.getD []).filterMap TemplateParameter.ofValue

/-- `value_matches_parameter_type`; a type that it does not know admits every value. -/
def valueMatchesParameterType (type : Bytes) (value : Value) : Bool :=
  if type = ascii "string" ∨ type = [] then value.asString.isSome
  else if type = ascii "identifier" then value.asString.any identifierLike
  else if type = ascii "java_package" then value.asString.any javaPackageLike
  else if type = ascii "path" then value.asString.any fun text ↦ text ≠ []
  else if type = ascii "bool" ∨ type = ascii "boolean" then value.asBool.isSome
  else if type = ascii "integer" ∨ type = ascii "int" then value.asInt.isSome
  else if type = ascii "enum" then value.asString.isSome
  else true

def mistypedParameter (parameters : Value) (spec : TemplateParameter) : Option Value :=
  match parameters.find spec.name with
  | none => none
  | some supplied =>
    if supplied.isNull ∨ valueMatchesParameterType spec.type supplied then none
    else some (.object
      ([(ascii "parameter", .string spec.name), (ascii "expected", .string spec.type)] ++
        (spec.description.map fun text ↦ (ascii "description", Value.string text)).toList))

def ValidationService.validateParameters (projectTemplate : ResolvedResource) (parameters : Value) :
    Result Unit :=
  let declared := TemplateService.parameters projectTemplate
  let missing := (declared.filter fun spec ↦ spec.required && !parameters.binds spec.name).map
    TemplateParameter.name
  let invalid := declared.filterMap (mistypedParameter parameters)
  if missing = [] ∧ invalid.isEmpty then .ok ()
  else .error
    { makeError .template_
        (if missing = [] then "template.parameter.invalid" else "template.parameter.missing")
        (ascii "template parameter contract not satisfied") with
      resource := projectTemplate.id.str
      recoverable := true
      diagnostics := .object [(ascii "missing", .strings missing), (ascii "invalid", .array invalid)] }

/-- The order of a `std::set` of texts. -/
def sortedSet (texts : List Bytes) : List Bytes :=
  texts.dedup.insertionSort fun a b ↦ List.compareLex compare a b ≠ .gt

namespace ResolvedSet

variable (set : ResolvedSet)

def kitIds : List Bytes := set.kits.map fun kit ↦ kit.id.str

def packageIds : List Bytes := set.packages.map fun package ↦ package.id.str

def kitAreas : List (ResolvedResource × Bytes) :=
  set.kits.flatMap fun kit ↦ kit.integrationAreas.map fun area ↦ (kit, area)

def contributors (area : Bytes) : List Bytes :=
  (set.kitAreas.filter fun listed ↦ listed.2 = area).map fun listed ↦ listed.1.id.str

def arity (area : Bytes) : Bytes :=
  (manifestExtension set.projectTemplate.cartridge.manifest "integration_arity").stringOr area
    (ascii "single")

def crowdedAreas : List Bytes :=
  (sortedSet (set.kitAreas.map Prod.snd)).filter fun area ↦
    2 ≤ (set.contributors area).length ∧ set.arity area ≠ ascii "multi"

def declaredConflicts : List (ResolvedResource × Bytes) :=
  set.kits.flatMap fun kit ↦
    ((stringList (manifestExtension kit.cartridge.manifest "conflicts_with")).filter fun other ↦
      other ∈ set.kitIds).map fun other ↦ (kit, other)

def requiredPackages (resource : ResolvedResource) : List Bytes :=
  stringList (manifestExtension resource.cartridge.manifest "requires.packages")

def requiredKits : List Bytes :=
  stringList (manifestExtension set.projectTemplate.cartridge.manifest "requires.kits.required")

end ResolvedSet

def uncheckedAreas (set : ResolvedSet) (kit : ResolvedResource) : Diagnostic :=
  { severity := .warning
    message := ascii "template " ++ set.projectTemplate.id.str ++
      ascii " declares no integration areas, so contributions from kit " ++ kit.id.str ++
      ascii " cannot be checked against it"
    resource := kit.id.str }

def undeclaredArea (set : ResolvedSet) (listed : ResolvedResource × Bytes) : EngineError :=
  { makeError .compatibility "kit.integration_point.undeclared"
      (ascii "kit " ++ listed.1.id.str ++ ascii " writes integration area '" ++ listed.2 ++
        ascii "', which template " ++ set.projectTemplate.id.str ++ ascii " does not declare") with
    resource := listed.1.id.str
    recoverable := true
    diagnostics := .object [(ascii "area", .string listed.2),
      (ascii "declared", .strings set.projectTemplate.integrationAreas)] }

def crowdedArea (set : ResolvedSet) (area : Bytes) : EngineError :=
  { makeError .compatibility "kit.integration_point.conflict"
      (ascii "integration area '" ++ area ++ ascii "' admits one contributor but " ++
        decimal (set.contributors area).length ++ ascii " kits write it") with
    recoverable := true
    diagnostics := .object [(ascii "area", .string area),
      (ascii "contributors", .strings (set.contributors area))] }

def declaredConflict (conflict : ResolvedResource × Bytes) : EngineError :=
  { makeError .compatibility "kit.compatibility.conflict"
      (ascii "kit " ++ conflict.1.id.str ++ ascii " declares an incompatibility with " ++
        conflict.2) with
    resource := conflict.1.id.str
    recoverable := true }

def kitWantsPackage (kit : ResolvedResource) (required : Bytes) : Diagnostic :=
  { severity := .warning
    message := ascii "kit " ++ kit.id.str ++ ascii " declares a requirement on " ++ required ++
      ascii ", which the workflow did not request"
    resource := kit.id.str }

def templateWantsPackage (projectTemplate : ResolvedResource) (required : Bytes) : Diagnostic :=
  { severity := .warning
    message := ascii "template " ++ projectTemplate.id.str ++ ascii " is written against package " ++
      required ++ ascii ", which the workflow did not request"
    resource := projectTemplate.id.str }

def missingKit (set : ResolvedSet) (required : Bytes) : EngineError :=
  { makeError .compatibility "template.kit.required"
      (ascii "template " ++ set.projectTemplate.id.str ++ ascii " requires kit " ++ required ++
        ascii ", which the workflow did not select") with
    resource := set.projectTemplate.id.str
    recoverable := true
    diagnostics := .object [(ascii "required_kits", .strings set.requiredKits),
      (ascii "selected", .strings (sortedSet set.kitIds))] }

def packageRemarks (set : ResolvedSet) : List Diagnostic :=
  let unrequested (resource : ResolvedResource) :=
    (ResolvedSet.requiredPackages resource).filter fun required ↦ required ∉ set.packageIds
  (set.kits.flatMap fun kit ↦ (unrequested kit).map (kitWantsPackage kit)) ++
    (unrequested set.projectTemplate).map (templateWantsPackage set.projectTemplate)

/-- `ValidationService::cross_validate`: the diagnostics with those it adds, also on its way out
with an error. -/
def crossValidate (set : ResolvedSet) (diagnostics : List Diagnostic) :
    Except Failure (List Diagnostic) := do
  let declared := set.projectTemplate.integrationAreas
  let diagnostics := diagnostics ++
    if declared = [] then (set.kits.filter fun kit ↦ kit.integrationAreas ≠ []).map
      (uncheckedAreas set)
    else []
  refuseFirst (set.kitAreas.filter fun listed ↦ declared ≠ [] ∧ listed.2 ∉ declared) fun listed ↦
    Failure.mk (undeclaredArea set listed) diagnostics
  refuseFirst set.crowdedAreas fun area ↦ Failure.mk (crowdedArea set area) diagnostics
  refuseFirst set.declaredConflicts fun conflict ↦ Failure.mk (declaredConflict conflict) diagnostics
  let diagnostics := diagnostics ++ packageRemarks set
  refuseFirst (set.requiredKits.filter fun required ↦ required ∉ set.kitIds) fun required ↦
    Failure.mk (missingKit set required) diagnostics
  pure diagnostics

end SquaredPg
