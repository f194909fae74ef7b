import SquaredPg.ResourceService

namespace SquaredPg

open Ascii Fallible

structure ResolutionContext where
  platforms : List Bytes := []
  frameworkVersion : Bytes := []
  templateId : ResourceId := .empty

/-- `ResourceService` after initialization: the index, and the opening of a payload. -/
structure ResourceService where
  index : ResourceIndex
  openRecord : ResourceRecord → Result Cartridge

def payloadPrefix (manifest : Manifest) : Bytes :=
  if manifest.tree = ascii "." then [] else manifest.tree

def platformsAdmit (declared wanted : List Bytes) : Bool :=
  declared = [] ∨ ascii "all" ∈ declared ∨ wanted = [] ∨ ∀ platform ∈ wanted, platform ∈ declared

def templatesAdmit (declared : List Bytes) (templateId : ResourceId) : Bool :=
  declared = [] ∨ templateId = .empty ∨ templateId.str ∈ declared

def declaredFramework (manifest : Manifest) : Option Bytes :=
  (manifestExtension manifest "requires.framework").asString

/-- The test for which a template, a kit or a package is refused: both texts parse, and the
version is outside the range. -/
def frameworkContradicts (declared : Option Bytes) (requested : Bytes) : Bool :=
  declared.any fun text ↦ requested ≠ [] ∧
    (VersionRange.parse text).any fun range ↦
      (Version.parse requested).any fun version ↦ !range.satisfiedBy version

def ensure (p : Prop) [Decidable p] (error : EngineError) : Result Unit :=
  if p then .ok () else .error error

def sectionMissing (category : ErrorCategory) (code noun : String) (ref : ResourceRef) :
    EngineError :=
  { makeError category code
      (ascii noun ++ ref.id.str ++ ascii " carries no section addressed to squared-pg") with
    resource := ref.id.str }

def platformsUnsupported (code noun : String) (ref : ResourceRef) (detail : Value) : EngineError :=
  { makeError .compatibility code
      (ascii noun ++ ref.id.str ++ ascii " does not support every requested platform") with
    resource := ref.id.str
    recoverable := true
    diagnostics := detail }

def platformDetail (declared wanted : List Bytes) : Value :=
  .object [(ascii "supported", .strings declared), (ascii "requested", .strings wanted)]

def frameworkMismatch (code noun : String) (ref : ResourceRef) (declared : Option Bytes)
    (tail : Bytes) : EngineError :=
  { makeError .framework code
      (ascii noun ++ ref.id.str ++ ascii " requires framework " ++ declared.getD [] ++ tail) with
    resource := ref.id.str
    recoverable := true }

def requestedFramework (context : ResolutionContext) : Bytes :=
  ascii ", requested " ++ context.frameworkVersion

/-- Some entry outside `SQ-INF/` lies below the payload root. -/
def populated (resolved : ResolvedResource) : Bool :=
  resolved.cartridge.entries.any fun entry ↦
    resolved.treePrefix.isPrefixOf entry && !metaDir.isPrefixOf entry

def emptyTemplate (ref : ResourceRef) : Diagnostic :=
  { severity := .warning
    message := ascii "template payload tree is empty; the workspace will contain only generated files"
    resource := ref.id.str }

def TemplateService.resolve (resources : ResourceService) (capabilities : List Capability)
    (ref : ResourceRef) (context : ResolutionContext) :
    Result (ResolvedResource × List Diagnostic) := do
  let opened ← selectAndOpen resources.index resources.openRecord ref .projectTemplate .template_
    "template" capabilities
  let manifest := opened.cartridge.manifest
  let platforms := stringList (manifestExtension manifest "platforms")
  let framework := declaredFramework manifest
  ensure (manifest.consumer consumerId ≠ none)
    (sectionMissing .template_ "template.manifest.invalid" "template " ref)
  ensure (platformsAdmit platforms context.platforms)
    (platformsUnsupported "template.compatibility.platform" "template " ref
      (platformDetail platforms context.platforms))
  ensure (!frameworkContradicts framework context.frameworkVersion)
    (frameworkMismatch "framework.compatibility.template" "template " ref framework
      (requestedFramework context))
  let resolved :=
    { opened with
      treePrefix := payloadPrefix manifest
      ownership := ownershipRules manifest
      integrationAreas := stringList (manifestExtension manifest "integration_areas") }
  pure (resolved, if populated resolved then [] else [emptyTemplate ref])

def templateUnsupported (ref : ResourceRef) (declared : List Bytes) (templateId : ResourceId) :
    EngineError :=
  { makeError .compatibility "kit.compatibility.template"
      (ascii "kit " ++ ref.id.str ++ ascii " does not support template " ++ templateId.str) with
    resource := ref.id.str
    recoverable := true
    diagnostics := .object [(ascii "supported_templates", .strings declared),
      (ascii "template", .string templateId.str)] }

def hostDependency (ref : ResourceRef) (external : Value) : Diagnostic :=
  let id := external.stringOr (ascii "id") []
  { severity := .info
    message := ascii "kit " ++ ref.id.str ++ ascii " expects " ++
      (if id = [] then ascii "its external dependency" else id) ++
      ascii " to be present on the build host; generation does not require it"
    resource := ref.id.str }

def noIntegrationAreas (ref : ResourceRef) : Diagnostic :=
  { severity := .warning
    message := ascii ("kit declares no integration areas; conflicts with other kits " ++
      "cannot be detected by declaration")
    resource := ref.id.str }

def KitService.resolve (resources : ResourceService) (capabilities : List Capability)
    (ref : ResourceRef) (context : ResolutionContext) :
    Result (ResolvedResource × List Diagnostic) := do
  let opened ← selectAndOpen resources.index resources.openRecord ref .kit .kit "kit" capabilities
  let manifest := opened.cartridge.manifest
  let templates := stringList (manifestExtension manifest "compatible_templates")
  let platforms := stringList (manifestExtension manifest "platforms")
  let areas := stringList (manifestExtension manifest "integration_areas")
  let framework := declaredFramework manifest
  let external := manifestExtension manifest "external"
  ensure (manifest.consumer consumerId ≠ none) (sectionMissing .kit "kit.manifest.invalid" "kit " ref)
  ensure (templatesAdmit templates context.templateId)
    (templateUnsupported ref templates context.templateId)
  ensure (platformsAdmit platforms context.platforms)
    (platformsUnsupported "kit.compatibility.platform" "kit " ref
      (platformDetail platforms context.platforms))
  ensure (!frameworkContradicts framework context.frameworkVersion)
    (frameworkMismatch "framework.compatibility.kit" "kit " ref framework
      (requestedFramework context))
  let resolved :=
    { opened with
      treePrefix := payloadPrefix manifest
      ownership := ownershipRules manifest
      integrationAreas := areas }
  pure (resolved,
    (if external.stringOr (ascii "acquisition") [] = ascii "system" then
      [hostDependency ref external] else []) ++
    (if areas = [] then [noIntegrationAreas ref] else []))

def emptyPackage (ref : ResourceRef) : Diagnostic :=
  { severity := .warning
    message := ascii "package " ++ ref.id.str ++
      ascii " carries no payload; it will contribute nothing to the workspace"
    resource := ref.id.str }

/-- Unlike the others, a package that is refused does not say what was requested. -/
def PackageService.resolve (resources : ResourceService) (capabilities : List Capability)
    (ref : ResourceRef) (context : ResolutionContext) :
    Result (ResolvedResource × List Diagnostic) := do
  let opened ← selectAndOpen resources.index resources.openRecord ref .package .package "package"
    capabilities
  let manifest := opened.cartridge.manifest
  let platforms := stringList (manifestExtension manifest "platforms")
  let framework := declaredFramework manifest
  ensure (manifest.consumer consumerId ≠ none)
    (sectionMissing .package "package.manifest.invalid" "package " ref)
  ensure (platformsAdmit platforms context.platforms)
    (platformsUnsupported "package.compatibility.platform" "package " ref .null)
  ensure (!frameworkContradicts framework context.frameworkVersion)
    (frameworkMismatch "framework.compatibility.package" "package " ref framework [])
  let resolved :=
    { opened with
      treePrefix := payloadPrefix manifest
      ownership := ownershipRules manifest }
  pure (resolved, if populated resolved then [] else [emptyPackage ref])

def skippedAsset (context : ResolutionContext) (item : Value) : Option Diagnostic :=
  match item.find (ascii "id") with
  | none => none
  | some _ =>
    if platformsAdmit (((item.find (ascii "platforms")).map stringList).getD []) context.platforms then
      none
    else
      let id := item.stringOr (ascii "id") []
      some
        { severity := .info
          message := ascii "asset " ++ id ++ ascii " has no target for the active platforms"
          resource := id
          path := item.stringOr (ascii "path") [] }

def AssetService.resolve (resources : ResourceService) (capabilities : List Capability)
    (ref : ResourceRef) (context : ResolutionContext) :
    Result (ResolvedResource × List Diagnostic) := do
  let opened ← selectAndOpen resources.index resources.openRecord ref .asset .asset "asset"
    capabilities
  let manifest := opened.cartridge.manifest
  let entries := ((manifestExtension manifest "entries").asArray).getD []
  ensure (manifest.consumer consumerId ≠ none)
    (sectionMissing .asset "asset.manifest.invalid" "asset bundle " ref)
  pure ({ opened with treePrefix := payloadPrefix manifest }, entries.filterMap (skippedAsset context))

end SquaredPg
