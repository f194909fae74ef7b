import SquaredPg.Registry
import SquaredPg.Validation

namespace SquaredPg

open Fallible

def FailsAs {α : Type} (code : Bytes) (x : Result α) : Prop :=
  ∃ error, x = .error error ∧ error.code = code

variable {α β : Type} {code : Bytes}

@[simp] theorem failsAs_error {error : EngineError} :
    FailsAs code (.error error : Result α) ↔ error.code = code := by
  simp [FailsAs]

@[simp] theorem not_failsAs_ok {a : α} : ¬ FailsAs code (.ok a : Result α) := by
  simp [FailsAs]

theorem failsAs_bind {x : Result α} {f : α → Result β} :
    FailsAs code (x >>= f) ↔ FailsAs code x ∨ ∃ a, x = .ok a ∧ FailsAs code (f a) := by
  cases x with
  | error error => simp [bind, Except.bind]
  | ok a => simp [bind, Except.bind]

theorem failsAs_ensure {p : Prop} [Decidable p] {error : EngineError} (h : error.code ≠ code) :
    ¬ FailsAs code (ensure p error) := by
  unfold ensure
  split_ifs
  · exact not_failsAs_ok
  · simpa using h

def configLists : List Bytes := [ascii "kits", ascii "packages", ascii "assets"]

def ListsResources (config : Value) (key : Bytes) : Prop :=
  ∀ list, config.find key = some list → list = .null ∨
    ∃ items, list = .array items ∧ ∀ item ∈ items, namesResource item = true

/-- One of the lists is an object without members, and those before it pass. -/
def EmptyObjectList (config : Value) : Prop :=
  ∃ before key after, configLists = before ++ key :: after ∧
    config.find key = some (.object []) ∧ ∀ earlier ∈ before, ListsResources config earlier

/-- The name, the output and the template are texts, and the name and the template pass. -/
structure Identified (config : Value) : Prop where
  supplied : ∀ key ∈ [ascii "name", ascii "output", ascii "template"], supplies config key = true
  name : identifierLike (config.stringOr (ascii "name") []) = true
  template : (ResourceRef.parse (config.stringOr (ascii "template") [])).isSome = true

def TakenAsArray (config : Value) (key : Bytes) : Prop :=
  ∀ list, config.find key = some list → list = .null ∨ typeMatches .array list = true

variable {config params : Value} {key : Bytes}

theorem not_code_of_ne {error : EngineError} {c code : Bytes} (h : error.code = c)
    (hne : c ≠ code) : ¬ error.code = code :=
  fun heq ↦ hne (h.symm.trans heq)

theorem refuseFirst_eq_ok {offenders : List Value} {error : Value → EngineError} {u : Unit} :
    refuseFirst offenders error = .ok u ↔ offenders = [] := by
  cases offenders with
  | nil => simp [refuseFirst]
  | cons offender rest => simp [refuseFirst]

theorem failsAs_refuseFirst {offenders : List Value} {error : Value → EngineError}
    (h : ∀ offender, (error offender).code ≠ code) :
    ¬ FailsAs code (refuseFirst offenders error) := by
  cases offenders with
  | nil => exact not_failsAs_ok
  | cons offender rest => simpa [refuseFirst] using h offender

theorem checkList_eq_ok {u : Unit} :
    checkList config key = .ok u ↔ ListsResources config key := by
  unfold checkList ListsResources
  cases config.find key with
  | none => simp
  | some list =>
    cases list with
    | array items =>
      simp [Value.isNull, Value.asArray, refuseFirst_eq_ok, List.filter_eq_nil_iff]
    | _ => simp [Value.isNull, Value.asArray]

theorem checkList_failsAs (h : TakenAsArray config key) :
    FailsAs (ascii "configuration.type.invalid") (checkList config key) ↔
      config.find key = some (.object []) := by
  unfold checkList
  cases hfind : config.find key with
  | none => simp
  | some list =>
    have hlist := h list hfind
    cases list with
    | null => simp [Value.isNull]
    | array items =>
      have hitem : ∀ item, (invalidItem key item).code ≠ ascii "configuration.type.invalid" := by
        intro item
        exact not_code_of_ne (c := ascii "configuration.identity.invalid") rfl (by decide)
      simpa [Value.isNull, Value.asArray] using failsAs_refuseFirst hitem
    | object members =>
      obtain rfl : members = [] := by
        simpa [typeMatches, Value.asArray, Value.asObject] using hlist
      simp [Value.isNull, Value.asArray, invalidList, makeError]
    | _ => simp [typeMatches, Value.asArray, Value.asObject] at hlist

theorem takenAsArray {descriptor : OperationDescriptor} {spec : ParameterSpec}
    (haccept : validateParameters descriptor params = .ok ()) (hspec : spec ∈ descriptor.parameters)
    (htype : spec.type = .array) : TakenAsArray params spec.name := by
  unfold validateParameters at haccept
  dsimp only at haccept
  split_ifs at haccept with hnone
  intro list hfind
  rw [List.isEmpty_iff, List.filterMap_eq_nil_iff] at hnone
  have hno := hnone.2 spec hspec
  rw [typeError, hfind, htype] at hno
  simp only [ite_eq_left_iff, reduceCtorEq, imp_false, not_not] at hno
  refine hno.imp_left fun hnull ↦ ?_
  cases list with
  | null => rfl
  | _ => cases hnull

/-- The operations that generate a project, or plan one. -/
def generationOperations : List Operation :=
  builtinOperations.filter fun operation ↦
    operation.descriptor.id = ascii "project.plan" ∨ operation.descriptor.id = ascii "project.generate"

theorem generationOperations_parameters {operation : Operation}
    (h : operation ∈ generationOperations) :
    operation.descriptor.parameters = generationParameters := by
  have hall : ∀ operation ∈ generationOperations,
      operation.descriptor.parameters = generationParameters := by
    decide +kernel
  exact hall operation h

theorem configLists_taken {operation : Operation} (hop : operation ∈ generationOperations)
    (haccept : validateParameters operation.descriptor params = .ok ()) :
    ∀ key ∈ configLists, TakenAsArray params key := by
  have hspec : ∀ key ∈ configLists, ∃ spec ∈ generationParameters,
      spec.name = key ∧ spec.type = .array := by
    decide +kernel
  intro key hkey
  obtain ⟨spec, hin, rfl, htype⟩ := hspec key hkey
  rw [← generationOperations_parameters hop] at hin
  exact takenAsArray haccept hin htype

theorem emptyObjectList_iff : EmptyObjectList params ↔
    params.find (ascii "kits") = some (.object []) ∨
      ListsResources params (ascii "kits") ∧
        (params.find (ascii "packages") = some (.object []) ∨
          ListsResources params (ascii "packages") ∧
            params.find (ascii "assets") = some (.object [])) := by
  unfold EmptyObjectList configLists
  constructor
  · intro ⟨before, key, after, heq, hkey, hbefore⟩
    rcases before with _ | ⟨first, _ | ⟨second, _ | ⟨third, before⟩⟩⟩
    · obtain ⟨rfl, _⟩ : ascii "kits" = key ∧ _ := by simpa using heq
      exact .inl hkey
    · obtain ⟨rfl, rfl, _⟩ : ascii "kits" = first ∧ ascii "packages" = key ∧ _ := by
        simpa using heq
      exact .inr ⟨hbefore _ (by simp), .inl hkey⟩
    · obtain ⟨rfl, rfl, rfl, _⟩ : ascii "kits" = first ∧ ascii "packages" = second ∧
          ascii "assets" = key ∧ _ := by
        simpa using heq
      exact .inr ⟨hbefore _ (by simp), .inr ⟨hbefore _ (by simp), hkey⟩⟩
    · simp at heq
  · intro h
    obtain hkits | ⟨hkits, hpackages | ⟨hpackages, hassets⟩⟩ := h
    · exact ⟨[], ascii "kits", _, rfl, hkits, by simp⟩
    · exact ⟨[ascii "kits"], ascii "packages", _, rfl, hpackages, by simpa using hkits⟩
    · exact ⟨[ascii "kits", ascii "packages"], ascii "assets", _, rfl, hassets,
        by simpa using ⟨hkits, hpackages⟩⟩

theorem identified_iff : Identified params ↔
    ([ascii "name", ascii "output", ascii "template"].filter fun key ↦ !supplies params key) = [] ∧
      identifierLike (params.stringOr (ascii "name") []) = true ∧
        (ResourceRef.parse (params.stringOr (ascii "template") [])).isSome = true := by
  rw [List.filter_eq_nil_iff]
  simp only [Bool.not_eq_eq_eq_not, Bool.not_true]
  constructor
  · intro h
    exact ⟨fun key hkey ↦ by simpa using h.supplied key hkey, h.name, h.template⟩
  · intro ⟨hsupplied, hname, htemplate⟩
    exact ⟨fun key hkey ↦ by simpa using hsupplied key hkey, hname, htemplate⟩

theorem validateConfiguration_failsAs (h : ∀ key ∈ configLists, TakenAsArray params key) :
    FailsAs (ascii "configuration.type.invalid") (validateConfiguration params) ↔
      Identified params ∧ EmptyObjectList params := by
  have hkits := checkList_failsAs (h (ascii "kits") (by simp [configLists]))
  have hpackages := checkList_failsAs (h (ascii "packages") (by simp [configLists]))
  have hassets := checkList_failsAs (h (ascii "assets") (by simp [configLists]))
  have hmissing : ∀ missing, ¬ (missingInputs missing).code = ascii "configuration.type.invalid" :=
    fun _ ↦ not_code_of_ne (c := ascii "configuration.input.missing") rfl (by decide)
  have hname : ∀ name, ¬ (invalidName name).code = ascii "configuration.type.invalid" :=
    fun _ ↦ not_code_of_ne (c := ascii "configuration.name.invalid") rfl (by decide)
  have htemplate : ∀ ref, ¬ (invalidTemplate ref).code = ascii "configuration.type.invalid" :=
    fun _ ↦ not_code_of_ne (c := ascii "configuration.identity.invalid") rfl (by decide)
  have hframework : ∀ text, ¬ (invalidFramework text).code = ascii "configuration.type.invalid" :=
    fun _ ↦ not_code_of_ne (c := ascii "framework.version.invalid") rfl (by decide)
  rw [identified_iff, emptyObjectList_iff, validateConfiguration]
  simp only [failsAs_bind, ensure_eq_ok, checkList_eq_ok, failsAs_ensure (hmissing _),
    failsAs_ensure (hname _), failsAs_ensure (htemplate _), failsAs_ensure (hframework _),
    hkits, hpackages, hassets, false_or, or_false, and_false, exists_const, and_assoc]

/-- A configuration that the operation takes fails with the type error exactly where one of its
lists is an object and nothing before that list is wrong. -/
theorem validators_agree_iff {operation : Operation} (hop : operation ∈ generationOperations)
    {params : Value} (haccept : validateParameters operation.descriptor params = .ok ()) :
    (∀ error, validateConfiguration params = .error error →
        error.code ≠ ascii "configuration.type.invalid") ↔
      ¬ (Identified params ∧ EmptyObjectList params) := by
  rw [← validateConfiguration_failsAs (configLists_taken hop haccept), FailsAs]
  simp only [not_exists, not_and]

def emptyKits : Value :=
  .object [(ascii "name", .string (ascii "demo")), (ascii "output", .string (ascii "/tmp/demo")),
    (ascii "template", .string (ascii "template.demo")), (ascii "kits", .object [])]

def planOperation : Operation := (generationOperations.head?).getD
  (operation "" "" [] [] [] false [] .describe)

theorem planOperation_mem : planOperation ∈ generationOperations := by decide +kernel

theorem emptyKits_accepted : validateParameters planOperation.descriptor emptyKits = .ok () :=
  toOption_eq_some.mp (by decide +kernel)

theorem emptyKits_failsAs : FailsAs (ascii "configuration.type.invalid")
    (validateConfiguration emptyKits) := by
  rw [validateConfiguration_failsAs (configLists_taken planOperation_mem emptyKits_accepted),
    emptyObjectList_iff]
  exact ⟨⟨by decide +kernel, by decide +kernel, by decide +kernel⟩, .inl rfl⟩

theorem validators_agree_emptyKits :
    validateParameters planOperation.descriptor emptyKits = .ok () ∧
      ((∀ error, validateConfiguration emptyKits = .error error →
          error.code ≠ ascii "configuration.type.invalid") ↔
        ¬ (Identified emptyKits ∧ EmptyObjectList emptyKits)) :=
  ⟨emptyKits_accepted, validators_agree_iff planOperation_mem emptyKits_accepted⟩

/-- The plan takes `kits` as an empty object, and the configuration does not. -/
theorem validators_disagree : ¬ ∀ operation ∈ generationOperations, ∀ params,
    validateParameters operation.descriptor params = .ok () → ∀ error,
      validateConfiguration params = .error error →
        error.code ≠ ascii "configuration.type.invalid" := by
  intro hall
  obtain ⟨error, herror, hcode⟩ := emptyKits_failsAs
  exact hall planOperation planOperation_mem emptyKits emptyKits_accepted error herror hcode

end SquaredPg
