import SquaredPg.Engine
import SquaredPg.Runs

namespace SquaredPg

open Ascii Fallible Program

def LifecycleState.Stable (state : LifecycleState) : Prop :=
  state = created ∨ state = ready ∨ state = failed ∨ state = destroyed

inductive Call
  | initialize_
  | execute (operation : Bytes) (parameters : Value)
  | shutdown

structure Event where
  before : Engine
  call : Call
  result : OperationResult
  after : Engine

namespace Engine

def serve (host : Host) (engine : Engine) : Call → EngineProgram (OperationResult × Engine)
  | .initialize_ => pure (engine.initialize_ host)
  | .execute operation parameters => engine.execute host operation parameters
  | .shutdown => pure engine.shutdown

/-- A call that returns, in surroundings that behave in any way that `step` allows. -/
def Serves {S : Type} (step : (op : FsOp) → S → Option (FsAnswer op) → S → Prop) (engine : Engine)
    (event : Event) (engine' : Engine) : Prop :=
  event.before = engine ∧ event.after = engine' ∧ ∃ host s s',
    Exec step (engine.serve host event.call) s (.ok (event.result, engine')) s'

/-- The operation is there and takes the parameters, and the engine is ready for it. -/
def Admits (engine : Engine) (operation : Bytes) (parameters : Value) : Prop :=
  engine.state = .ready ∧ ∃ found, engine.findOperation operation = some found ∧
    validateParameters found.descriptor parameters = .ok ()

variable {S : Type} {step : (op : FsOp) → S → Option (FsAnswer op) → S → Prop}
  {engine engine' : Engine} {event : Event} {events : List Event} {operation : Bytes}
  {parameters : Value} {found : Operation} {config : EngineConfig}

theorem admission_eq_ok : engine.admission operation parameters = .ok found ↔ engine.state = .ready ∧
    engine.findOperation operation = some found ∧
      validateParameters found.descriptor parameters = .ok () := by
  unfold admission
  split_ifs with hstate
  · simp [hstate]
  · rw [not_not] at hstate
    cases hfound : engine.findOperation operation with
    | none => simp
    | some other =>
      simp only [hstate, map_eq_ok, Option.some.injEq, true_and]
      constructor
      · rintro ⟨u, hvalid, rfl⟩
        exact ⟨rfl, hvalid⟩
      · rintro ⟨rfl, hvalid⟩
        exact ⟨(), hvalid, rfl⟩

theorem execute_refused (h : ¬ engine.Admits operation parameters) : ∃ error, ∀ host,
    engine.execute host operation parameters = .done (engine.answer (.failed error)) := by
  cases hadmission : engine.admission operation parameters with
  | error e =>
    refine ⟨e, fun host ↦ ?_⟩
    rw [execute, hadmission]
    rfl
  | ok found =>
    obtain ⟨hready, hfound, hvalid⟩ := admission_eq_ok.mp hadmission
    exact absurd ⟨hready, found, hfound, hvalid⟩ h

theorem initialize_refused (host : Host) (h : engine.state ≠ .created) : ∃ error,
    engine.initialize_ host = engine.answer (.failed error) := by
  rw [initialize_, if_pos h]
  exact ⟨_, rfl⟩

theorem start_cases (host : Host) (engine : Engine) :
    ((engine.start host).1.succeeded = false ∧
        (engine.start host).2 =
          { engine with state := .failed, lastResult := (engine.start host).1 }) ∨
      ∃ index diagnostics, (engine.start host).1.succeeded = true ∧
        (engine.start host).2 =
          { engine.started index diagnostics with lastResult := (engine.start host).1 } := by
  unfold start
  cases coreServices.find? fun required ↦ decide (required ∉ engine.locator.names) with
  | some required => exact .inl ⟨rfl, rfl⟩
  | none =>
    cases engine.buildIndex host with
    | error e => exact .inl ⟨rfl, rfl⟩
    | ok built => exact .inr ⟨built.1, built.2, by simp [answer], rfl⟩

theorem execute_wp (host : Host) (s : S) :
    (engine.execute host operation parameters).wp step
      (fun served _ ↦ served.2 = { engine with lastResult := served.1 }) (fun _ _ ↦ True)
      (fun _ ↦ True) s := by
  unfold execute
  cases hadmission : engine.admission operation parameters with
  | error e => rfl
  | ok found =>
    dsimp only
    rw [wp_bind]
    refine wp_always (fun result s' ↦ ?_) (fun _ _ ↦ trivial) (fun _ ↦ trivial) _ s
    have hready := (admission_eq_ok.mp hadmission).1
    simp [answer, ← hready]

/-- All that a call does to the engine. -/
theorem serves_cases (h : Serves step engine event engine') :
    ((event.call = .initialize_ → engine.state ≠ .created) ∧
      engine' = { engine with lastResult := event.result }) ∨
    (event.call = .initialize_ ∧ engine.state = .created ∧
      ((event.result.succeeded = false ∧
          engine' = { engine.registered with state := .failed, lastResult := event.result }) ∨
        ∃ index diagnostics, event.result.succeeded = true ∧
          engine' = { engine.registered.started index diagnostics with lastResult := event.result })) ∨
    engine' = { engine with state := .destroyed } := by
  obtain ⟨-, -, host, s, s', hexec⟩ := h
  cases hcall : event.call with
  | initialize_ =>
    rw [hcall] at hexec
    have hserved : (event.result, engine') = engine.initialize_ host :=
      Outcome.ok.inj hexec.of_done.1
    by_cases hstate : engine.state = .created
    · have hcases := start_cases host engine.registered
      rw [initialize_, if_neg (by simp [hstate])] at hserved
      rw [← hserved] at hcases
      exact .inr (.inl ⟨rfl, hstate, hcases⟩)
    · obtain ⟨error, heq⟩ := initialize_refused host hstate
      rw [heq] at hserved
      obtain ⟨hresult, rfl⟩ := Prod.mk.inj hserved
      exact .inl ⟨fun _ ↦ hstate, by rw [hresult]⟩
  | execute operation parameters =>
    rw [hcall] at hexec
    exact .inl ⟨by simp, hexec.sound (execute_wp host s)⟩
  | shutdown =>
    rw [hcall] at hexec
    have hserved : (event.result, engine') = engine.shutdown := Outcome.ok.inj hexec.of_done.1
    have hafter : engine' = engine.shutdown.2 := congrArg Prod.snd hserved
    refine .inr (.inr ?_)
    rw [hafter, shutdown]
    split_ifs with hstate
    · rw [← hstate]
    · rfl

section Handlers

open FilesystemService MetadataService TransactionService

variable {host : Host} {params : Value}

theorem workspaceVerify_readsOnly (params : Value) : (workspaceVerify params).CallsOnly ReadsOnly := by
  refine callsOnly_bind (readFile_readsOnly _) fun text ↦ ?_
  cases jsonParse text with
  | error e => trivial
  | ok record =>
    dsimp only [verifyRecord]
    cases (record.find (ascii "provenance")).bind Value.asArray with
    | none => trivial
    | some table =>
      refine callsOnly_bind (callsOnly_foldlM (fun audit row ↦ ?_) _ _) fun _ ↦ trivial
      unfold auditRow
      split_ifs
      · trivial
      · exact callsOnly_bind (callsOnly_attempt (readFile_readsOnly _)) fun _ ↦ trivial

theorem workspaceInspect_readsOnly (params : Value) :
    (workspaceInspect params).CallsOnly ReadsOnly := by
  refine callsOnly_bind (readFile_readsOnly _) fun text ↦ ?_
  cases jsonParse text <;> trivial

theorem reported_readsOnly {program : FsProgram OperationResult} (h : program.CallsOnly ReadsOnly) :
    (reported program).CallsOnly ReadsOnly := by
  refine callsOnly_bind (callsOnly_attempt h) fun result ↦ ?_
  cases result <;> trivial

theorem handle_readsOnly {handler : Handler} (h : handler ≠ .projectGenerate) :
    (engine.handle host params handler).CallsOnly ReadsOnly := by
  cases handler
  case projectGenerate => exact absurd rfl h
  case workspaceVerify => exact reported_readsOnly (workspaceVerify_readsOnly params)
  case workspaceInspect => exact reported_readsOnly (workspaceInspect_readsOnly params)
  all_goals trivial

theorem generateProject_readless : (engine.generateProject host params).CallsOnly Readless := by
  unfold generateProject
  cases engine.planFor host params with
  | error e => trivial
  | ok plan =>
    refine callsOnly_bind (callsOnly_attempt (apply_readless _ _ _)) fun applied ↦ ?_
    cases applied <;> trivial

end Handlers

structure Registry where
  locator : ServiceLocator := {}
  capabilities : List Capability := []
  descriptors : List OperationDescriptor := []
  operations : List Operation := []

def registry (engine : Engine) : Registry :=
  ⟨engine.locator, engine.capabilities, engine.descriptors, engine.operations⟩

def Registry.builtin : Registry where
  locator := coreServices.foldl .registerService {}
  capabilities := builtinCapabilities.insertionSort byToken
  descriptors := (builtinOperations.map Operation.descriptor).insertionSort byId
  operations := builtinOperations

structure Registry.Distinct (registry : Registry) : Prop where
  services : registry.locator.names.Nodup
  capabilities : (registry.capabilities.map Capability.token).Nodup
  descriptors : (registry.descriptors.map OperationDescriptor.id).Nodup
  operations : (registry.operations.map fun operation ↦ operation.descriptor.id).Nodup

theorem Registry.distinct_builtin : Registry.builtin.Distinct where
  services := Registry.builtin.locator.distinct
  capabilities := (((List.perm_insertionSort byToken builtinCapabilities).map
    Capability.token).nodup_iff).mpr (by decide +kernel)
  descriptors := (((List.perm_insertionSort byId (builtinOperations.map Operation.descriptor)).map
    OperationDescriptor.id).nodup_iff).mpr (by decide +kernel)
  operations := by
    change (builtinOperations.map fun operation ↦ operation.descriptor.id).Nodup
    decide +kernel

theorem registry_registered (h : engine.registry = {}) : engine.registered.registry = .builtin := by
  obtain ⟨hlocator, hcapabilities, hdescriptors, hoperations⟩ := Registry.mk.inj h
  simp only [registered, registry, registerCapabilities, registerServices, registerOperations,
    hlocator, hcapabilities, hdescriptors, hoperations, List.nil_append, Registry.builtin]

structure Settled (engine : Engine) : Prop where
  stable : engine.state.Stable
  registry : engine.registry = {} ∨ engine.registry = .builtin
  fresh : engine.state = .created → engine.registry = {}

theorem Settled.distinct (h : engine.Settled) : engine.registry.Distinct := by
  rcases h.registry with heq | heq
  · rw [heq]
    exact ⟨List.nodup_nil, List.nodup_nil, List.nodup_nil, List.nodup_nil⟩
  · rw [heq]
    exact Registry.distinct_builtin

theorem settled_create (config : EngineConfig) : (create config).Settled where
  stable := .inl rfl
  registry := .inl rfl
  fresh _ := rfl

theorem Settled.serves (h : engine.Settled) (hserves : Serves step engine event engine') :
    engine'.Settled := by
  rcases serves_cases hserves with ⟨-, rfl⟩ | ⟨-, hcreated, hstarted⟩ | rfl
  · exact ⟨h.stable, h.registry, h.fresh⟩
  · have hregistry := registry_registered (h.fresh hcreated)
    generalize engine.registered = filled at hstarted hregistry
    rcases hstarted with ⟨-, rfl⟩ | ⟨index, diagnostics, -, rfl⟩
    · exact ⟨.inr (.inr (.inl rfl)), .inr hregistry, fun hstate ↦ by cases hstate⟩
    · exact ⟨.inr (.inl rfl), .inr hregistry, fun hstate ↦ by cases hstate⟩
  · exact ⟨.inr (.inr (.inr rfl)), h.registry, fun hstate ↦ by cases hstate⟩

end Engine

open Engine

variable {S : Type} {step : (op : FsOp) → S → Option (FsAnswer op) → S → Prop}
  {engine engine' : Engine} {event : Event} {events : List Event} {config : EngineConfig}

def Event.Registers (event : Event) : Prop := event.after.registry ≠ event.before.registry

/-- The call is one that `initialize` or `execute` turns down. -/
def Event.Refused (event : Event) : Prop :=
  match event.call with
  | .initialize_ => event.before.state ≠ .created
  | .execute operation parameters => ¬ event.before.Admits operation parameters
  | .shutdown => False

structure Event.Orderly (event : Event) : Prop where
  stable : event.before.state.Stable ∧ event.after.state.Stable
  ready : event.before.state ≠ .ready → event.after.state = .ready →
    event.call = .initialize_ ∧ event.before.state = .created ∧ event.result.succeeded = true
  handled : ∀ operation parameters, event.call = .execute operation parameters →
    ¬ event.before.Admits operation parameters → ∃ error, ∀ host,
      event.before.execute host operation parameters = .done (event.before.answer (.failed error))
  refused : event.Refused → event.result.succeeded = false ∧
    event.after = { event.before with lastResult := event.result }
  absorbing : event.before.state = .destroyed → event.after.state = .destroyed

/-- The life of an engine through the calls of a run. -/
structure Lifecycle (events : List Event) (engine : Engine) : Prop where
  stable : engine.state.Stable
  orderly : ∀ event ∈ events, event.Orderly
  distinct : engine.registry.Distinct
  once : events.Pairwise fun event event' ↦ event.Registers → ¬ event'.Registers
  index : events.Pairwise fun event event' ↦
    event.call = .initialize_ → event'.after.index = event'.before.index

theorem ready_of_serves (hserves : Serves step engine event engine') (hbefore : engine.state ≠ .ready)
    (hafter : engine'.state = .ready) :
    event.call = .initialize_ ∧ engine.state = .created ∧ event.result.succeeded = true := by
  rcases serves_cases hserves with ⟨-, rfl⟩ | ⟨hcall, hcreated, hstarted⟩ | rfl
  · exact absurd hafter hbefore
  · rcases hstarted with ⟨-, rfl⟩ | ⟨index, diagnostics, hresult, rfl⟩
    · cases hafter
    · exact ⟨hcall, hcreated, hresult⟩
  · cases hafter

theorem refused_of_serves (hserves : Serves step engine event engine') (h : event.Refused) :
    event.result.succeeded = false ∧ engine' = { engine with lastResult := event.result } := by
  obtain ⟨rfl, -, host, s, s', hexec⟩ := hserves
  have hanswer : ∃ error, event.before.serve host event.call =
      .done (event.before.answer (.failed error)) := by
    unfold Event.Refused at h
    cases hcall : event.call with
    | initialize_ =>
      rw [hcall] at h
      obtain ⟨error, heq⟩ := initialize_refused host h
      exact ⟨error, congrArg Program.done heq⟩
    | execute operation parameters =>
      rw [hcall] at h
      obtain ⟨error, heq⟩ := execute_refused h
      exact ⟨error, heq host⟩
    | shutdown =>
      rw [hcall] at h
      exact h.elim
  obtain ⟨error, hanswer⟩ := hanswer
  rw [hanswer] at hexec
  obtain ⟨hresult, hafter⟩ := Prod.mk.inj (Outcome.ok.inj hexec.of_done.1)
  rw [hafter, hresult]
  exact ⟨rfl, rfl⟩

theorem destroyed_of_serves (hserves : Serves step engine event engine')
    (h : engine.state = .destroyed) : engine'.state = .destroyed := by
  rcases serves_cases hserves with ⟨-, rfl⟩ | ⟨-, hcreated, -⟩ | rfl
  · exact h
  · rw [h] at hcreated
    cases hcreated
  · rfl

theorem Engine.Settled.orderly (h : engine.Settled) (hserves : Serves step engine event engine') :
    event.Orderly := by
  have hafter := h.serves hserves
  have hready := ready_of_serves hserves
  have hrefused := refused_of_serves hserves
  have hdestroyed := destroyed_of_serves hserves
  obtain ⟨rfl, rfl, -⟩ := hserves
  exact ⟨⟨h.stable, hafter.stable⟩, hready, fun _ _ _ ↦ execute_refused, hrefused, hdestroyed⟩

theorem kept_of_serves (hserves : Serves step engine event engine') (h : engine.state ≠ .created) :
    engine'.state ≠ .created ∧ ¬ event.Registers ∧ event.after.index = event.before.index := by
  have hcases := serves_cases hserves
  obtain ⟨rfl, rfl, -⟩ := hserves
  unfold Event.Registers
  rcases hcases with ⟨-, heq⟩ | ⟨-, hcreated, -⟩ | heq
  · rw [heq]
    exact ⟨h, not_not.mpr rfl, rfl⟩
  · exact absurd hcreated h
  · rw [heq]
    exact ⟨by simp, not_not.mpr rfl, rfl⟩

theorem departs_of_serves (hserves : Serves step engine event engine')
    (h : event.Registers ∨ event.call = .initialize_) : engine'.state ≠ .created := by
  have hcases := serves_cases hserves
  obtain ⟨rfl, rfl, -⟩ := hserves
  rcases hcases with ⟨hcall, heq⟩ | ⟨-, -, hstarted⟩ | heq
  · rcases h with hregisters | hinitialize
    · exact absurd (by rw [heq]; rfl) hregisters
    · rw [heq]
      exact hcall hinitialize
  · rcases hstarted with ⟨-, heq⟩ | ⟨index, diagnostics, -, heq⟩
    · simp [heq]
    · simp [heq, started]
  · simp [heq]

/-- Every sequence of calls on a created engine, answered in whatever way, is a lifecycle. -/
theorem engine_lifecycle (h : Runs (Serves step) (create config) events engine) :
    Lifecycle events engine where
  stable := (h.invariant (fun _ _ _ hsettled ↦ hsettled.serves) (settled_create config)).stable
  orderly := h.each (fun _ _ _ hsettled hserves ↦ ⟨hsettled.serves hserves, hsettled.orderly hserves⟩)
    (settled_create config)
  distinct :=
    (h.invariant (fun _ _ _ hsettled ↦ hsettled.serves) (settled_create config)).distinct
  once := h.latched (Q := fun engine ↦ engine.state ≠ .created)
    (fun _ _ _ hleft hserves ↦ (kept_of_serves hserves hleft).imp_right And.left)
    fun _ _ _ hserves hregisters ↦ departs_of_serves hserves (.inl hregisters)
  index := h.latched (Q := fun engine ↦ engine.state ≠ .created)
    (fun _ _ _ hleft hserves ↦ (kept_of_serves hserves hleft).imp_right And.right)
    fun _ _ _ hserves hcall ↦ departs_of_serves hserves (.inr hcall)

theorem exists_runs (host : Host) (fs : FileSystem) (calls : List Call) (engine : Engine) :
    ∃ events engine', events.map Event.call = calls ∧
      Runs (Serves (FileSystem.Behaves host.cwd fun _ ↦ True)) engine events engine' := by
  induction calls generalizing engine with
  | nil => exact ⟨[], engine, rfl, .nil engine⟩
  | cons call calls ih =>
    have hexec := FileSystem.exec_perform host.cwd (fun _ ↦ True) (engine.serve host call) fs
    rcases hrun : (engine.serve host call).run (FileSystem.perform host.cwd) fs with
      ⟨_ | ⟨result, engine'⟩, fs'⟩
    · rename_i e
      exact e.elim
    · rw [hrun] at hexec
      obtain ⟨events, last, hcalls, hruns⟩ := ih engine'
      exact ⟨⟨engine, call, result, engine'⟩ :: events, last, by simp [hcalls],
        .cons ⟨rfl, rfl, host, fs, fs', hexec⟩ hruns⟩

def bareHost : Host where
  cwd := []
  candidates _ := none
  openEnvelope _ := .error []
  openRecord record := .error (makeError .resource "resource.payload.unreadable" record.location)

/-- An engine without resources that waits for its first operation. -/
def readyEngine : Engine := ((create {}).initialize_ bareHost).2

theorem described_lifecycle : ∃ events engine, events.map Event.call =
      [.initialize_, .execute (ascii "engine.describe") (.object []), .shutdown, .initialize_] ∧
    Runs (Serves (FileSystem.Behaves [] fun _ ↦ True)) (create {}) events engine ∧
      Lifecycle events engine := by
  obtain ⟨events, engine, hcalls, hruns⟩ := exists_runs bareHost .bare
    [.initialize_, .execute (ascii "engine.describe") (.object []), .shutdown, .initialize_]
    (create {})
  exact ⟨events, engine, hcalls, hruns, engine_lifecycle hruns⟩

end SquaredPg
