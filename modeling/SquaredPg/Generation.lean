import SquaredPg.Requirements
import SquaredPg.Validation

namespace SquaredPg

open Ascii Fallible

def configStrings (config : Value) (key : Bytes) : List Bytes :=
  ((config.find key).map stringList).getD []

def invalidTemplateReference : EngineError :=
  makeError .configuration "configuration.identity.invalid"
    (ascii "template reference is not a valid resource reference")

def invalidReference (noun : String) (text : Bytes) : EngineError :=
  makeError .configuration "configuration.identity.invalid"
    (ascii "'" ++ text ++ ascii ("' is not a valid " ++ noun ++ " reference"))

def resolveNext (service : TypedService) (noun : String) (resources : ResourceService)
    (capabilities : List Capability) (context : ResolutionContext)
    (found : List ResolvedResource × List Diagnostic) (text : Bytes) :
    Except Failure (List ResolvedResource × List Diagnostic) := do
  match ResourceRef.parse text with
  | none => .error ⟨invalidReference noun text, found.2⟩
  | some ref =>
    let (resolved, remarks) ← (service.resolve resources capabilities ref context).mapError
      fun error ↦ ⟨error, found.2⟩
    pure (found.1 ++ [resolved], found.2 ++ remarks)

/-- The phases of `resolve_set` behind the validation of the configuration. -/
def resolveNamed (resources : ResourceService) (capabilities : List Capability)
    (engineVersion : Version) (config : Value) : Except Failure (ResolvedSet × List Diagnostic) := do
  match ResourceRef.parse (config.stringOr (ascii "template") []) with
  | none => .error ⟨invalidTemplateReference, []⟩
  | some ref =>
    let context : ResolutionContext :=
      { platforms := configStrings config (ascii "platforms")
        frameworkVersion := config.stringOr (ascii "framework") []
        templateId := ref.id }
    let (projectTemplate, diagnostics) ←
      (TemplateService.resolve resources capabilities ref context).mapError fun error ↦ ⟨error, []⟩
    let (kits, diagnostics) ← (configStrings config (ascii "kits")).foldlM
      (resolveNext .kit "kit" resources capabilities context) ([], diagnostics)
    let (packages, diagnostics) ← (configStrings config (ascii "packages")).foldlM
      (resolveNext .package "package" resources capabilities context) ([], diagnostics)
    let (assets, diagnostics) ← (configStrings config (ascii "assets")).foldlM
      (resolveNext .asset "asset" resources capabilities context) ([], diagnostics)
    let set : ResolvedSet :=
      { projectTemplate, kits, packages, assets, platforms := context.platforms }
    (ValidationService.validateParameters projectTemplate
      (set.parameters config engineVersion)).mapError fun error ↦ ⟨error, diagnostics⟩
    let diagnostics ← crossValidate set diagnostics
    pure (set, diagnostics)

/-- `resolve_set`: the set with the diagnostics that came up. -/
def resolveSet (resources : ResourceService) (capabilities : List Capability)
    (engineVersion : Version) (config : Value) : Except Failure (ResolvedSet × List Diagnostic) := do
  (validateConfiguration config).mapError fun error ↦ ⟨error, []⟩
  resolveNamed resources capabilities engineVersion config

/-- `plan_for`; the diagnostics that came up are in the plan. -/
def planFor (resources : ResourceService) (capabilities : List Capability) (engineVersion : Version)
    (config : Value) : Except Failure GenerationPlan := do
  let (set, diagnostics) ← resolveSet resources capabilities engineVersion config
  buildPlan set config engineVersion diagnostics

/-- The members of two values differ at one key only. -/
def AgreeBut (key : Bytes) (a b : Value) : Prop := ∀ k, k ≠ key → a.find k = b.find k

variable {key k fallback : Bytes} {config config' : Value} {resources : ResourceService}
  {capabilities : List Capability} {engineVersion : Version} {plan plan' : GenerationPlan}

theorem AgreeBut.stringOr (h : AgreeBut key config config') (hk : k ≠ key) :
    config.stringOr k fallback = config'.stringOr k fallback := by
  rw [Value.stringOr, Value.stringOr, h k hk]

theorem AgreeBut.configStrings (h : AgreeBut key config config') (hk : k ≠ key) :
    configStrings config k = configStrings config' k := by
  rw [SquaredPg.configStrings, SquaredPg.configStrings, h k hk]

theorem AgreeBut.parameters (h : AgreeBut (ascii "output") config config') (set : ResolvedSet) :
    set.parameters config engineVersion = set.parameters config' engineVersion := by
  simp only [ResolvedSet.parameters, effectiveParameters, h (ascii "parameters") (by decide),
    h.stringOr (k := ascii "name") (by decide), h.stringOr (k := ascii "framework") (by decide)]

theorem AgreeBut.resolveNamed (h : AgreeBut (ascii "output") config config') :
    resolveNamed resources capabilities engineVersion config =
      resolveNamed resources capabilities engineVersion config' := by
  simp only [SquaredPg.resolveNamed, h.stringOr (k := ascii "template") (by decide),
    h.stringOr (k := ascii "framework") (by decide), h.configStrings (k := ascii "platforms") (by decide),
    h.configStrings (k := ascii "kits") (by decide), h.configStrings (k := ascii "packages") (by decide),
    h.configStrings (k := ascii "assets") (by decide), h.parameters]

theorem AgreeBut.planFor (h : AgreeBut (ascii "output") config config')
    (hplan : planFor resources capabilities engineVersion config = .ok plan)
    (hplan' : planFor resources capabilities engineVersion config' = .ok plan') :
    plan' = { plan with workspace := plan'.workspace } := by
  simp only [SquaredPg.planFor, resolveSet, bind_eq_ok] at hplan hplan'
  obtain ⟨⟨set, diagnostics⟩, ⟨_, -, hset⟩, hplan⟩ := hplan
  obtain ⟨⟨set', diagnostics'⟩, ⟨_, -, hset'⟩, hplan'⟩ := hplan'
  rw [← h.resolveNamed, hset] at hset'
  obtain ⟨rfl, rfl⟩ := Prod.mk.inj (Except.ok.inj hset')
  simp only [buildPlan, bind_eq_ok, pure, Except.pure, Except.ok.injEq,
    ← h.parameters, ← h.stringOr (k := ascii "name") (by decide),
    ← h.stringOr (k := ascii "framework") (by decide)] at hplan hplan'
  obtain ⟨draft, hdraft, rfl⟩ := hplan
  obtain ⟨draft', hdraft', rfl⟩ := hplan'
  rw [hdraft] at hdraft'
  obtain rfl := Except.ok.inj hdraft'
  rfl

theorem buildPlan_of_planFor
    (hplan : planFor resources capabilities engineVersion config = .ok plan) :
    ∃ set diagnostics, buildPlan set config engineVersion diagnostics = .ok plan := by
  rw [planFor, bind_eq_ok] at hplan
  obtain ⟨⟨set, diagnostics⟩, -, hplan⟩ := hplan
  exact ⟨set, diagnostics, hplan⟩

theorem workspace_of_planFor
    (hplan : planFor resources capabilities engineVersion config = .ok plan) :
    plan.workspace = config.stringOr (ascii "output") [] := by
  obtain ⟨set, diagnostics, hplan⟩ := buildPlan_of_planFor hplan
  simp only [buildPlan, bind_eq_ok, pure, Except.pure, Except.ok.injEq] at hplan
  obtain ⟨draft, -, rfl⟩ := hplan
  rfl

end SquaredPg
