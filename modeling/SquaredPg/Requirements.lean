import SquaredPg.PlanProperties
import SquaredPg.ResolveServices

namespace SquaredPg

open Ascii Fallible

inductive TypedService
  | template_ | kit | package | asset
  deriving DecidableEq

namespace TypedService

def kind : TypedService → ResourceKind
  | template_ => .projectTemplate
  | kit => .kit
  | package => .package
  | asset => .asset

def resolve : TypedService → ResourceService → List Capability → ResourceRef → ResolutionContext →
    Result (ResolvedResource × List Diagnostic)
  | template_ => TemplateService.resolve
  | kit => KitService.resolve
  | package => PackageService.resolve
  | asset => AssetService.resolve

def compatible (manifest : Manifest) (context : ResolutionContext) : TypedService → Prop
  | template_ | package =>
    platformsAdmit (stringList (manifestExtension manifest "platforms")) context.platforms = true ∧
      frameworkContradicts (declaredFramework manifest) context.frameworkVersion = false
  | kit =>
    templatesAdmit (stringList (manifestExtension manifest "compatible_templates"))
        context.templateId = true ∧
      platformsAdmit (stringList (manifestExtension manifest "platforms")) context.platforms = true ∧
      frameworkContradicts (declaredFramework manifest) context.frameworkVersion = false
  | asset => True

end TypedService

variable {service : TypedService} {resources : ResourceService} {capabilities : List Capability}
  {ref : ResourceRef} {context : ResolutionContext} {record : ResourceRecord}
  {cartridge : Cartridge} {engineVersion : Version}

/-- A record and its cartridge pass every check that the service makes of a request. -/
structure Admitted (service : TypedService) (resources : ResourceService)
    (capabilities : List Capability) (ref : ResourceRef) (context : ResolutionContext)
    (record : ResourceRecord) (cartridge : Cartridge) : Prop where
  selected : ∃ range, VersionRange.parse ref.range = some range ∧
    resources.index.select ref.id range = some record
  unambiguous : resources.index.conflictFor ref.id = none
  kind : record.kind = service.kind
  opened : resources.openRecord record = .ok cartridge
  capable : ∀ requirement ∈ stringList (manifestExtension cartridge.manifest "requires.capabilities"),
    providesCapability capabilities requirement = true
  addressed : cartridge.manifest.consumer consumerId ≠ none
  compatible : service.compatible cartridge.manifest context

theorem ensure_eq_ok {p : Prop} [Decidable p] {error : EngineError} {u : Unit} :
    ensure p error = .ok u ↔ p := by
  unfold ensure
  split_ifs with h <;> simp [h]

theorem checkCapabilities_eq_ok {manifest : Manifest} {id : ResourceId} :
    checkCapabilities manifest capabilities id = .ok () ↔
      ∀ requirement ∈ stringList (manifestExtension manifest "requires.capabilities"),
        providesCapability capabilities requirement = true := by
  unfold checkCapabilities
  dsimp only
  split_ifs with h
  · simpa [List.filter_eq_nil_iff] using h
  · simpa [List.filter_eq_nil_iff] using h

theorem selectAndOpen_admitted {kind : ResourceKind} (category : ErrorCategory) (codePrefix : String) :
    selectAndOpen resources.index resources.openRecord ref kind category codePrefix capabilities =
        .ok { record, cartridge } ↔
      (∃ range, VersionRange.parse ref.range = some range ∧
        resources.index.select ref.id range = some record) ∧
      resources.index.conflictFor ref.id = none ∧ record.kind = kind ∧
      resources.openRecord record = .ok cartridge ∧
      ∀ requirement ∈ stringList (manifestExtension cartridge.manifest "requires.capabilities"),
        providesCapability capabilities requirement = true := by
  rw [selectAndOpen_eq_ok]
  constructor
  · rintro ⟨range, cartridge', hrange, hconflict, hselect, hkind, hopen, hcheck, heq⟩
    obtain rfl : cartridge = cartridge' := congrArg ResolvedResource.cartridge heq
    exact ⟨⟨range, hrange, hselect⟩, hconflict, hkind, hopen, checkCapabilities_eq_ok.mp hcheck⟩
  · rintro ⟨⟨range, hrange, hselect⟩, hconflict, hkind, hopen, hcapable⟩
    exact ⟨range, cartridge, hrange, hconflict, hselect, hkind, hopen,
      checkCapabilities_eq_ok.mpr hcapable, rfl⟩

theorem admitted_of_checks (service : TypedService) {category : ErrorCategory} {codePrefix : String}
    {checks : ResolvedResource → Result (ResolvedResource × List Diagnostic)}
    (hchecks : ∀ record cartridge, (∃ resolved diagnostics,
      checks { record, cartridge } = .ok (resolved, diagnostics)) ↔
        cartridge.manifest.consumer consumerId ≠ none ∧ service.compatible cartridge.manifest context)
    (hkeeps : ∀ opened resolved diagnostics, checks opened = .ok (resolved, diagnostics) →
      resolved.record = opened.record ∧ resolved.cartridge = opened.cartridge) :
    (∃ resolved diagnostics, (selectAndOpen resources.index resources.openRecord ref service.kind
        category codePrefix capabilities >>= checks) = .ok (resolved, diagnostics) ∧
          resolved.record = record ∧ resolved.cartridge = cartridge) ↔
      Admitted service resources capabilities ref context record cartridge := by
  constructor
  · rintro ⟨resolved, diagnostics, hok, rfl, rfl⟩
    obtain ⟨opened, hopened, hok⟩ := bind_eq_ok.mp hok
    obtain ⟨range, cartridge, -, -, -, -, -, -, hform⟩ := selectAndOpen_eq_ok.mp hopened
    obtain ⟨hrecord, hcartridge⟩ := hkeeps opened resolved diagnostics hok
    have hform' : opened = { record := opened.record, cartridge := opened.cartridge } := by
      rw [hform]
    rw [hform'] at hopened hok
    obtain ⟨hselected, hconflict, hkind, hopen, hcapable⟩ := (selectAndOpen_admitted _ _).mp hopened
    obtain ⟨haddressed, hcompatible⟩ := (hchecks _ _).mp ⟨resolved, diagnostics, hok⟩
    rw [hrecord, hcartridge]
    exact ⟨hselected, hconflict, hkind, hopen, hcapable, haddressed, hcompatible⟩
  · intro h
    obtain ⟨resolved, diagnostics, hok⟩ := (hchecks record cartridge).mpr ⟨h.addressed, h.compatible⟩
    have hopened := (selectAndOpen_admitted category codePrefix).mpr
      ⟨h.selected, h.unambiguous, h.kind, h.opened, h.capable⟩
    obtain ⟨hrecord, hcartridge⟩ := hkeeps _ resolved diagnostics hok
    exact ⟨resolved, diagnostics, bind_eq_ok.mpr ⟨_, hopened, hok⟩, hrecord, hcartridge⟩

theorem resolve_iff_admitted :
    (∃ resolved diagnostics, service.resolve resources capabilities ref context =
      .ok (resolved, diagnostics) ∧ resolved.record = record ∧ resolved.cartridge = cartridge) ↔
      Admitted service resources capabilities ref context record cartridge := by
  cases service with
  | template_ =>
    refine admitted_of_checks .template_ ?_ ?_
    · intro record cartridge
      simp [bind_eq_ok, ensure_eq_ok, TypedService.compatible, pure, Except.pure]
    · intro opened resolved diagnostics hok
      simp only [bind_eq_ok, ensure_eq_ok, pure, Except.pure, Except.ok.injEq, Prod.mk.injEq] at hok
      obtain ⟨_, -, _, -, _, -, rfl, -⟩ := hok
      exact ⟨rfl, rfl⟩
  | kit =>
    refine admitted_of_checks .kit ?_ ?_
    · intro record cartridge
      simp [bind_eq_ok, ensure_eq_ok, TypedService.compatible, pure, Except.pure]
    · intro opened resolved diagnostics hok
      simp only [bind_eq_ok, ensure_eq_ok, pure, Except.pure, Except.ok.injEq, Prod.mk.injEq] at hok
      obtain ⟨_, -, _, -, _, -, _, -, rfl, -⟩ := hok
      exact ⟨rfl, rfl⟩
  | package =>
    refine admitted_of_checks .package ?_ ?_
    · intro record cartridge
      simp [bind_eq_ok, ensure_eq_ok, TypedService.compatible, pure, Except.pure]
    · intro opened resolved diagnostics hok
      simp only [bind_eq_ok, ensure_eq_ok, pure, Except.pure, Except.ok.injEq, Prod.mk.injEq] at hok
      obtain ⟨_, -, _, -, _, -, rfl, -⟩ := hok
      exact ⟨rfl, rfl⟩
  | asset =>
    refine admitted_of_checks .asset ?_ ?_
    · intro record cartridge
      simp [bind_eq_ok, ensure_eq_ok, TypedService.compatible, pure, Except.pure]
    · intro opened resolved diagnostics hok
      simp only [bind_eq_ok, ensure_eq_ok, pure, Except.pure, Except.ok.injEq, Prod.mk.injEq] at hok
      obtain ⟨_, -, rfl, -⟩ := hok
      exact ⟨rfl, rfl⟩

def templateRequest : ResourceRef := ⟨(sampleTemplate "" []).id, []⟩

def requestedRecord : ResourceRecord :=
  { id := templateRequest.id, kind := .projectTemplate, version := { major := 1 }
    location := ascii "/resources/sample" }

def demandingCartridge (text : String) : Cartridge := (sampleTemplate text ["a"]).cartridge

/-- A service that knows one template, with this text as the engine's section of its manifest. -/
def demandingTemplate (text : String) : ResourceService :=
  { index := .ofRecords [requestedRecord]
    openRecord := fun _ ↦ .ok (demandingCartridge text) }

theorem demandingTemplate_admitted {text : String}
    (hcapable : stringList (manifestExtension (demandingCartridge text).manifest
      "requires.capabilities") = [])
    (hcompatible : TypedService.template_.compatible (demandingCartridge text).manifest context) :
    Admitted .template_ (demandingTemplate text) [] templateRequest context requestedRecord
      (demandingCartridge text) where
  selected := ⟨{}, by decide,
    show (ResourceIndex.ofRecords [requestedRecord]).select templateRequest.id {} = _ by decide⟩
  unambiguous :=
    show (ResourceIndex.ofRecords [requestedRecord]).conflictFor templateRequest.id = _ by decide
  kind := rfl
  opened := rfl
  capable := by simp [hcapable]
  addressed := nofun
  compatible := hcompatible

/-- The range that a manifest declares for the engine parses and admits the engine's version. -/
def EngineInRange (manifest : Manifest) (engineVersion : Version) : Prop :=
  ∀ text, declaredEngineRange manifest = some text →
    ∃ range, VersionRange.parse text = some range ∧ range.satisfiedBy engineVersion = true

/-- A requirement `token@range` is met by one of the capabilities. -/
def Met (capabilities : List Capability) (requirement : Bytes) : Prop :=
  ∃ capability ∈ capabilities, capability.token = (cutAt at_ requirement).1 ∧
    ∃ range, VersionRange.parse ((cutAt at_ requirement).2.getD []) = some range ∧
      range.satisfiedBy capability.version = true

structure EngineMeets (manifest : Manifest) (engineVersion : Version)
    (capabilities : List Capability) : Prop where
  engine : EngineInRange manifest engineVersion
  capable : ∀ requirement ∈ stringList (manifestExtension manifest "requires.capabilities"),
    Met capabilities requirement

theorem met_of_providesCapability {requirement : Bytes}
    (h : providesCapability capabilities requirement = true) : Met capabilities requirement := by
  unfold providesCapability at h
  dsimp only at h
  split at h
  · cases h
  · rename_i found hfound
    split at h
    · cases h
    · rename_i range hrange
      have htoken := List.find?_some hfound
      exact ⟨found, List.mem_of_find?_eq_some hfound, by simpa using htoken, range, hrange, h⟩

/-- The capabilities are checked on every request; the engine's own version never is. -/
theorem engineMeets_iff (service : TypedService) (resources : ResourceService)
    (capabilities : List Capability) (ref : ResourceRef) (context : ResolutionContext)
    (engineVersion : Version) :
    (∀ resolved diagnostics, service.resolve resources capabilities ref context =
        .ok (resolved, diagnostics) →
      EngineMeets resolved.cartridge.manifest engineVersion capabilities) ↔
    ∀ record cartridge, Admitted service resources capabilities ref context record cartridge →
      EngineInRange cartridge.manifest engineVersion := by
  constructor
  · intro h record cartridge hadmitted
    obtain ⟨resolved, diagnostics, hok, -, rfl⟩ := resolve_iff_admitted.mpr hadmitted
    exact (h resolved diagnostics hok).engine
  · intro h resolved diagnostics hok
    have hadmitted := resolve_iff_admitted.mp ⟨resolved, diagnostics, hok, rfl, rfl⟩
    exact ⟨h _ _ hadmitted, fun requirement hin ↦
      met_of_providesCapability (hadmitted.capable requirement hin)⟩

def futureEngine : String := "\x7b\"requires\":\x7b\"engine\":\">=99.0.0\"\x7d\x7d"

theorem future_engine_resolved : ¬ ∀ resolved diagnostics,
    TypedService.template_.resolve (demandingTemplate futureEngine) [] templateRequest {} =
        .ok (resolved, diagnostics) →
      EngineMeets resolved.cartridge.manifest { minor := 1 } [] := by
  intro h
  have hadmitted : Admitted .template_ (demandingTemplate futureEngine) [] templateRequest {}
      requestedRecord (demandingCartridge futureEngine) :=
    demandingTemplate_admitted (by decide +kernel) ⟨by decide +kernel, by decide +kernel⟩
  obtain ⟨resolved, diagnostics, hok, -, hcartridge⟩ := resolve_iff_admitted.mpr hadmitted
  have hmeets := h resolved diagnostics hok
  rw [hcartridge] at hmeets
  obtain ⟨range, hrange, hsat⟩ := hmeets.engine (ascii ">=99.0.0") (by decide +kernel)
  have hparse : (VersionRange.parse (ascii ">=99.0.0")).any
      (fun range ↦ range.satisfiedBy { minor := 1 }) = false := by decide
  simp [hrange, hsat] at hparse

def FrameworkHolds (text requested : Bytes) : Prop :=
  ∃ range version, VersionRange.parse text = some range ∧ Version.parse requested = some version ∧
    range.satisfiedBy version = true

theorem frameworkContradicts_eq_false {text requested : Bytes} (hrequested : requested ≠ []) :
    frameworkContradicts (some text) requested = false ↔
      ∀ range version, VersionRange.parse text = some range → Version.parse requested = some version →
        range.satisfiedBy version = true := by
  cases hrange : VersionRange.parse text with
  | none => simp [frameworkContradicts, hrange]
  | some range =>
    cases hversion : Version.parse requested with
    | none => simp [frameworkContradicts, hversion]
    | some version => simp [frameworkContradicts, hrange, hversion, hrequested]

theorem TypedService.compatible_framework {manifest : Manifest} (hservice : service ≠ .asset)
    (h : service.compatible manifest context) :
    frameworkContradicts (declaredFramework manifest) context.frameworkVersion = false := by
  cases service with
  | template_ => exact h.2
  | kit => exact h.2.2
  | package => exact h.2
  | asset => exact absurd rfl hservice

/-- A declared framework range is enforced where it and the requested version both parse. -/
theorem framework_holds_iff (service : TypedService) (hservice : service ≠ .asset)
    (resources : ResourceService) (capabilities : List Capability) (ref : ResourceRef)
    (context : ResolutionContext) :
    (∀ resolved diagnostics, service.resolve resources capabilities ref context =
        .ok (resolved, diagnostics) →
      ∀ text, declaredFramework resolved.cartridge.manifest = some text → text ≠ [] →
        context.frameworkVersion ≠ [] → FrameworkHolds text context.frameworkVersion) ↔
    ∀ record cartridge, Admitted service resources capabilities ref context record cartridge →
      ∀ text, declaredFramework cartridge.manifest = some text → text ≠ [] →
        context.frameworkVersion ≠ [] →
          VersionRange.parse text ≠ none ∧ Version.parse context.frameworkVersion ≠ none := by
  constructor
  · intro h record cartridge hadmitted text htext hne hrequested
    obtain ⟨resolved, diagnostics, hok, -, rfl⟩ := resolve_iff_admitted.mpr hadmitted
    obtain ⟨range, version, hrange, hversion, -⟩ := h resolved diagnostics hok text htext hne hrequested
    rw [hrange, hversion]
    exact ⟨nofun, nofun⟩
  · intro h resolved diagnostics hok text htext hne hrequested
    have hadmitted := resolve_iff_admitted.mp ⟨resolved, diagnostics, hok, rfl, rfl⟩
    obtain ⟨hrange, hversion⟩ := h _ _ hadmitted text htext hne hrequested
    obtain ⟨range, hrange⟩ := Option.ne_none_iff_exists'.mp hrange
    obtain ⟨version, hversion⟩ := Option.ne_none_iff_exists'.mp hversion
    have hnot := TypedService.compatible_framework hservice hadmitted.compatible
    rw [htext, frameworkContradicts_eq_false hrequested] at hnot
    exact ⟨range, version, hrange, hversion, hnot range version hrange hversion⟩

def steadyRange : String := "\x7b\"requires\":\x7b\"framework\":\">=1.0 <2.0\"\x7d\x7d"

theorem steady_range_holds :
    (∃ resolved diagnostics, TypedService.template_.resolve (demandingTemplate steadyRange) []
      templateRequest { frameworkVersion := ascii "1.5.0" } = .ok (resolved, diagnostics)) ∧
    ∀ resolved diagnostics,
      TypedService.template_.resolve (demandingTemplate steadyRange) [] templateRequest
          { frameworkVersion := ascii "1.5.0" } = .ok (resolved, diagnostics) →
        ∀ text, declaredFramework resolved.cartridge.manifest = some text → text ≠ [] →
          ascii "1.5.0" ≠ [] → FrameworkHolds text (ascii "1.5.0") := by
  have hadmitted : Admitted .template_ (demandingTemplate steadyRange) [] templateRequest
      { frameworkVersion := ascii "1.5.0" } requestedRecord (demandingCartridge steadyRange) :=
    demandingTemplate_admitted (by decide +kernel) ⟨by decide +kernel, by decide +kernel⟩
  obtain ⟨resolved, diagnostics, hok, -, -⟩ := resolve_iff_admitted.mpr hadmitted
  refine ⟨⟨resolved, diagnostics, hok⟩, ?_⟩
  refine (framework_holds_iff .template_ (by decide) (demandingTemplate steadyRange) []
    templateRequest { frameworkVersion := ascii "1.5.0" }).mpr fun record cartridge hadmitted ↦ ?_
  obtain rfl : demandingCartridge steadyRange = cartridge := Except.ok.inj hadmitted.opened
  intro text htext _ _
  have hdeclared : declaredFramework (demandingCartridge steadyRange).manifest =
      some (ascii ">=1.0 <2.0") := by decide +kernel
  obtain rfl : ascii ">=1.0 <2.0" = text := Option.some.inj (hdeclared.symm.trans htext)
  exact ⟨by decide, by decide⟩

def commaRange : String := "\x7b\"requires\":\x7b\"framework\":\">=1.0,<2.0\"\x7d\x7d"

theorem comma_range_resolved : ¬ ∀ resolved diagnostics,
    TypedService.template_.resolve (demandingTemplate commaRange) [] templateRequest
        { frameworkVersion := ascii "3.0.0" } = .ok (resolved, diagnostics) →
      ∀ text, declaredFramework resolved.cartridge.manifest = some text → text ≠ [] →
        ascii "3.0.0" ≠ [] → FrameworkHolds text (ascii "3.0.0") := by
  intro h
  have hadmitted : Admitted .template_ (demandingTemplate commaRange) [] templateRequest
      { frameworkVersion := ascii "3.0.0" } requestedRecord (demandingCartridge commaRange) :=
    demandingTemplate_admitted (by decide +kernel) ⟨by decide +kernel, by decide +kernel⟩
  obtain ⟨resolved, diagnostics, hok, -, hcartridge⟩ := resolve_iff_admitted.mpr hadmitted
  have hholds := h resolved diagnostics hok
  rw [hcartridge] at hholds
  obtain ⟨range, version, hrange, -⟩ :=
    hholds (ascii ">=1.0,<2.0") (by decide +kernel) (by decide) (by decide)
  have hparse : VersionRange.parse (ascii ">=1.0,<2.0") = none := by decide
  cases hparse.symm.trans hrange

end SquaredPg
