import SquaredPg.ApplySucceeds
import SquaredPg.OutputLocation
import SquaredPg.Warnings

namespace SquaredPg

open Ascii Fallible Program

def EngineError.unnamed (error : EngineError) : EngineError := { error with operation := [] }

theorem OperationResult.unnamed_setOperation (result : OperationResult) (operation : Bytes) :
    (result.setOperation operation).errors.map EngineError.unnamed =
      result.errors.map EngineError.unnamed := by
  rw [setOperation, List.map_map]
  refine List.map_congr_left fun error _ ↦ ?_
  rw [Function.comp_apply]
  split_ifs <;> rfl

namespace TransactionService

open FilesystemService FileSystem MetadataService

variable {S : Type} {step : (op : FsOp) → S → Option (FsAnswer op) → S → Prop} {cwd : Location}
  {plan : GenerationPlan} {metadataRecord : Value} {fast : Bool}

theorem wp_last {ε α β : Type} {p : Program FsOp FsAnswer ε α} {f : α → Program FsOp FsAnswer ε β}
    {ok : β → S → Prop} {s : S}
    (h : ∀ a s, (f a).wp step ok (fun _ _ ↦ True) (fun _ ↦ True) s) :
    (p >>= f).wp step ok (fun _ _ ↦ True) (fun _ ↦ True) s :=
  (wp_bind p f).mpr (wp_always h (fun _ _ ↦ trivial) (fun _ ↦ trivial) p s)

def Counts (steps : List PlanStep) (outcome : Outcome) : Prop :=
  outcome.filesWritten = steps.countP (fun step ↦ step.isDirectory = false) ∧
    outcome.directoriesCreated = steps.countP fun step ↦ step.isDirectory = true

theorem applyStep_counts {staging : HostPath} {done : List PlanStep} {outcome : Outcome}
    (taken : PlanStep) (s : S) (h : Counts done outcome) :
    (applyStep staging fast outcome taken).wp step (fun outcome' _ ↦ Counts (done ++ [taken]) outcome')
      (fun _ _ ↦ True) (fun _ ↦ True) s := by
  obtain ⟨hfiles, hdirs⟩ := h
  unfold applyStep
  split_ifs with hdir
  · refine wp_last fun _ _ ↦ ?_
    change Counts _ _
    simp [Counts, hfiles, hdirs, hdir]
  · refine wp_last fun _ _ ↦ wp_last fun _ _ ↦ ?_
    change Counts _ _
    simp [Counts, hfiles, hdirs, hdir]

theorem build_counts {staging target : HostPath} (s : S) :
    (build staging target plan metadataRecord fast).wp step
      (fun outcome _ ↦ outcome.filesWritten =
          plan.steps.countP (fun step ↦ step.isDirectory = false) + 1 ∧
        outcome.directoriesCreated = plan.steps.countP fun step ↦ step.isDirectory = true)
      (fun _ _ ↦ True) (fun _ ↦ True) s := by
  unfold build
  rw [wp_bind]
  have hsteps : (plan.steps.foldlM (applyStep staging fast) {}).wp step
      (fun outcome _ ↦ Counts plan.steps outcome) (fun _ _ ↦ True) (fun _ ↦ True) s :=
    wp_foldlM (I := fun done outcome _ ↦ Counts done outcome)
      (fun done taken outcome s _ h ↦ applyStep_counts taken s h) ⟨rfl, rfl⟩
  refine wp_mono hsteps (fun outcome s ⟨hfiles, hdirs⟩ ↦ ?_) (fun _ _ h ↦ h) fun _ h ↦ h
  refine wp_last fun _ _ ↦ wp_last fun _ _ ↦ ?_
  exact ⟨congrArg (· + 1) hfiles, hdirs⟩

theorem apply_counts (s : S) :
    (apply cwd plan metadataRecord fast).wp step
      (fun outcome _ ↦ outcome.filesWritten =
          plan.steps.countP (fun step ↦ step.isDirectory = false) + 1 ∧
        outcome.directoriesCreated = plan.steps.countP fun step ↦ step.isDirectory = true)
      (fun _ _ ↦ True) (fun _ ↦ True) s := by
  unfold apply
  refine wp_last fun _ _ ↦ wp_last fun _ _ ↦ wp_last fun _ _ ↦ wp_last fun _ s ↦ ?_
  rw [wp_bind, wp_handle]
  refine wp_mono (build_counts s) (fun outcome s h ↦ ?_) (fun e s _ ↦ ?_) fun _ h ↦ h
  · dsimp only
    split_ifs
    · exact wp_last fun _ _ ↦ h
    · exact h
  · exact wp_last fun _ _ ↦ trivial

end TransactionService

namespace Engine

open FileSystem MetadataService TransactionService

def projectPlan : Bytes := ascii "project.plan"

variable {S : Type} {step : (op : FsOp) → S → Option (FsAnswer op) → S → Prop} {host : Host}
  {config : EngineConfig} {engine engine' : Engine} {events : List Event} {event : Event}
  {params : Value} {fs : FileSystem} {plan : GenerationPlan}

/-- What holds of an engine between calls, and what a ready one has registered. -/
structure Equipped (engine : Engine) : Prop where
  settled : engine.Settled
  ready : engine.state = .ready → engine.registry = .builtin

theorem equipped_create (config : EngineConfig) : (create config).Equipped :=
  ⟨settled_create config, fun hstate ↦ by cases hstate⟩

theorem Equipped.serves (h : engine.Equipped) (hserves : Serves step engine event engine') :
    engine'.Equipped := by
  refine ⟨h.settled.serves hserves, ?_⟩
  rcases serves_cases hserves with ⟨-, rfl⟩ | ⟨-, hcreated, hstarted⟩ | rfl
  · exact h.ready
  · have hregistry := registry_registered (h.settled.fresh hcreated)
    generalize engine.registered = filled at hstarted hregistry
    rcases hstarted with ⟨-, rfl⟩ | ⟨index, diagnostics, -, rfl⟩
    · exact fun _ ↦ hregistry
    · exact fun _ ↦ hregistry
  · intro hstate
    cases hstate

theorem validateParameters_alike (params : Value) {descriptor descriptor' : OperationDescriptor}
    (h : descriptor.parameters = descriptor'.parameters) :
    (validateParameters descriptor params = .ok () ∧ validateParameters descriptor' params = .ok ()) ∨
      ∃ e e', validateParameters descriptor params = .error e ∧
        validateParameters descriptor' params = .error e' ∧ e'.unnamed = e.unnamed := by
  unfold validateParameters
  rw [h]
  dsimp only
  split_ifs
  · exact .inl ⟨rfl, rfl⟩
  · exact .inr ⟨_, _, rfl, rfl, rfl⟩

theorem admission_alike (params : Value) (h : engine.Equipped) :
    (∃ e e', engine.admission projectPlan params = .error e ∧
      engine.admission projectGenerate params = .error e' ∧ e'.unnamed = e.unnamed) ∨
    ∃ planning generating, engine.admission projectPlan params = .ok planning ∧
      planning.handler = .projectPlan ∧ engine.admission projectGenerate params = .ok generating ∧
      generating.handler = .projectGenerate := by
  unfold admission
  by_cases hready : engine.state = .ready
  · rw [if_neg (not_not.mpr hready), if_neg (not_not.mpr hready)]
    have hoperations : engine.operations = builtinOperations :=
      congrArg Registry.operations (h.ready hready)
    have hfind : ∀ id, engine.findOperation id =
        builtinOperations.find? fun operation ↦ operation.descriptor.id = id := by
      intro id
      rw [findOperation, hoperations]
    obtain ⟨planning, generating, hplanning, hgenerating, hplan, hgenerate, hparameters⟩ :
        ∃ planning generating, engine.findOperation projectPlan = some planning ∧
          engine.findOperation projectGenerate = some generating ∧
          planning.handler = .projectPlan ∧ generating.handler = .projectGenerate ∧
          planning.descriptor.parameters = generating.descriptor.parameters :=
      ⟨_, _, (hfind _).trans rfl, (hfind _).trans rfl, rfl, rfl, rfl⟩
    simp only [hplanning, hgenerating]
    rcases validateParameters_alike params hparameters with
      ⟨hok, hok'⟩ | ⟨e, e', herror, herror', hsame⟩
    · rw [hok, hok']
      exact .inr ⟨planning, generating, rfl, hplan, rfl, hgenerate⟩
    · rw [herror, herror']
      exact .inl ⟨e, e', rfl, rfl, hsame⟩
  · rw [if_pos hready, if_pos hready]
    exact .inl ⟨_, _, rfl, rfl, rfl⟩

/-- What an undisturbed run of a plan's transaction answers and leaves. -/
structure Lands (host : Host) (engine : Engine) (params : Value) (plan : GenerationPlan)
    (fs : FileSystem) (result : OperationResult) (after : FileSystem) : Prop where
  exact : result.succeeded = true ↔ Vacant fs (requestedTarget host params) ∧
    Apart (engine.transactionSteps plan)
  report : result.succeeded = true → result.data = engine.generatedData plan
    { filesWritten := plan.steps.countP (fun step ↦ step.isDirectory = false) + 1
      directoriesCreated := plan.steps.countP fun step ↦ step.isDirectory = true }
  whole : result.succeeded = true → Complete (buildRecord plan engine.config.engineVersion) plan.steps
    engine.config.fastDurability (workspaceAt host params after)
  outside : result.succeeded = true → KeepsOutside (requestedTarget host params) fs after
  failed : result.succeeded = false → OnlyAncestors (requestedTarget host params) fs after

/-- The answer to `project.plan`, and what `project.generate` then answers and leaves. -/
structure Foretells (host : Host) (engine : Engine) (params : Value) (fs : FileSystem)
    (planned result : OperationResult) (after : FileSystem) : Prop where
  noted : result.diagnostics = planned.diagnostics ∧ result.warnings = planned.warnings
  decided : planned.succeeded = true ↔ engine.Admits projectPlan params ∧
    ∃ plan, engine.planFor host params = .ok plan
  refused : planned.succeeded = false → result.succeeded = false ∧
    result.errors.map EngineError.unnamed = planned.errors.map EngineError.unnamed ∧ after = fs
  accepted : ∀ plan, planned.succeeded = true → engine.planFor host params = .ok plan →
    planned.data = plan.toValue ∧ Lands host engine params plan fs result after

def Notes (diagnostics : List Diagnostic) (result : OperationResult) : Prop :=
  result.diagnostics = diagnostics.filter (fun d ↦ d.severity ≠ .warning) ∧
    result.warnings = diagnostics.filter fun d ↦ d.severity = .warning

theorem notes_withDiagnostics {result : OperationResult} (diagnostics : List Diagnostic)
    (hnone : result.diagnostics = []) (hunwarned : result.warnings = []) :
    Notes diagnostics (result.withDiagnostics diagnostics) := by
  constructor
  · rw [OperationResult.withDiagnostics_eq]
    simp [hnone]
  · rw [OperationResult.withDiagnostics_eq]
    simp [hunwarned]

theorem run_execute_error {operation : Bytes} {e : EngineError}
    (h : engine.admission operation params = .error e) :
    (engine.execute host operation params).run (perform host.cwd) fs =
      (.ok (engine.answer (.failed e)), fs) := by
  rw [execute, h]
  rfl

theorem run_generateProject (hcwd : ∀ c ∈ host.cwd, Plain c)
    (hway : WayClear (requestedTarget host params) fs)
    (hplan : engine.planFor host params = .ok plan) :
    ∃ result after, (engine.generateProject host params).run (perform host.cwd) fs =
        (.ok result, after) ∧ Notes plan.diagnostics result ∧
      Lands host engine params plan fs result after := by
  obtain ⟨set, diagnostics, hbuild⟩ := buildPlan_of_planFor hplan
  have hsteps := inside_of_buildPlan hbuild
  have htarget : targetOf host.cwd plan = requestedTarget host params := by
    rw [targetOf, workspace_of_planFor hplan, requestedTarget]
  have hway' := htarget ▸ hway
  unfold generateProject
  rw [hplan]
  dsimp only
  rw [run_bind, run_attempt]
  cases hrun : (apply host.cwd plan (buildRecord plan engine.config.engineVersion)
      engine.config.fastDurability).run (perform host.cwd) fs with
  | mk out after =>
    cases out with
    | error e =>
      have hexec := exec_perform host.cwd (fun _ ↦ True) (apply host.cwd plan
        (buildRecord plan engine.config.engineVersion) engine.config.fastDurability) fs
      rw [hrun] at hexec
      have hreached := hexec.sound (apply_wp hcwd hsteps)
      have hfailed : ((OperationResult.failed e).withDiagnostics plan.diagnostics).succeeded = false := by
        rw [OperationResult.succeeded_withDiagnostics, OperationResult.succeeded_failed]
      refine ⟨_, after, rfl, notes_withDiagnostics _ rfl rfl,
        ⟨⟨fun hok ↦ ?_, fun hfree ↦ ?_⟩, fun hok ↦ ?_, fun hok ↦ ?_, fun hok ↦ ?_,
          fun _ ↦ htarget ▸ Reached.onlyAncestors hway' hreached⟩⟩
      · rw [hfailed] at hok
        cases hok
      · obtain ⟨hvacant, happart⟩ := hfree
        have hyields : (apply host.cwd plan (buildRecord plan engine.config.engineVersion)
            engine.config.fastDurability).Yields (perform host.cwd) (fun _ _ ↦ True) fs :=
          apply_yields hcwd hsteps hway' (htarget ▸ hvacant) happart
        obtain ⟨outcome, last, hlast, -⟩ := hyields
        rw [hrun] at hlast
        cases hlast
      all_goals
        rw [hfailed] at hok
        cases hok
    | ok outcome =>
      have hdata : (engine.generatedReport plan outcome).data = engine.generatedData plan outcome := by
        rw [generatedReport, OperationResult.withDiagnostics_eq]
        rfl
      have hok : (engine.generatedReport plan outcome).succeeded = true := by
        rw [generatedReport, OperationResult.succeeded_withDiagnostics]
        rfl
      have hcounts := sound_run hrun (apply_counts fs)
      have hcommitted := run_committed hcwd hsteps hrun
      refine ⟨_, after, rfl, notes_withDiagnostics _ rfl rfl,
        ⟨⟨fun _ ↦ ?_, fun _ ↦ hok⟩, fun _ ↦ ?_, fun _ ↦ ?_,
          fun _ ↦ htarget ▸ hcommitted.keepsOutside (targetOf_wellFormed hcwd plan), fun hnot ↦ ?_⟩⟩
      · rw [← htarget]
        exact vacant_of_run hcwd hsteps hway' hrun
      · rw [hdata, generatedData, generatedData, hcounts.1, hcounts.2]
      · rw [workspaceAt, ← htarget]
        exact complete_of_committed hcwd hway' (fun _ _ ↦ trivial) trivial hcommitted
      · rw [hok] at hnot
        cases hnot

theorem run_execute_ok {operation : Bytes} {found : Operation} {result : OperationResult}
    {after : FileSystem} (h : engine.admission operation params = .ok found)
    (hrun : (handle host { engine with state := .operating } params found.handler).run
      (perform host.cwd) fs = (.ok result, after)) :
    (engine.execute host operation params).run (perform host.cwd) fs =
      (.ok ({ engine with state := .ready }.answer (result.setOperation operation)), after) := by
  rw [execute, h]
  dsimp only
  rw [run_bind, hrun]
  rfl

theorem Equipped.foretells (hequipped : engine.Equipped) (hcwd : ∀ c ∈ host.cwd, Plain c)
    (hway : WayClear (requestedTarget host params) fs) :
    ∃ planned engine₁ result engine₂ after,
      (engine.execute host projectPlan params).run (perform host.cwd) fs =
        (.ok (planned, engine₁), fs) ∧
      engine.generate host params fs = (.ok (result, engine₂), after) ∧
      Foretells host engine params fs planned result after := by
  rcases admission_alike params hequipped with
    ⟨e, e', herror, herror', hsame⟩ | ⟨planning, generating, hplanning, hplan, hgenerating, hgenerate⟩
  · have hnot : ¬ engine.Admits projectPlan params := by
      rintro ⟨hready, found, hfound, hvalid⟩
      rw [admission_eq_ok.mpr ⟨hready, hfound, hvalid⟩] at herror
      cases herror
    refine ⟨_, _, _, _, fs, run_execute_error herror, run_execute_error herror',
      ⟨⟨rfl, rfl⟩, iff_of_false (by simp) fun h ↦ hnot h.1, fun _ ↦ ⟨rfl, ?_, rfl⟩, fun _ hok ↦ ?_⟩⟩
    · exact congrArg (fun error ↦ [error]) hsame
    · cases hok
  have hadmits : engine.Admits projectPlan params := by
    obtain ⟨hready, hfound, hvalid⟩ := admission_eq_ok.mp hplanning
    exact ⟨hready, planning, hfound, hvalid⟩
  have hplanned : ∀ result, planProject host { engine with state := .operating } params = result →
      (handle host { engine with state := .operating } params planning.handler).run
        (perform host.cwd) fs = (.ok result, fs) := by
    rintro result rfl
    rw [hplan]
    rfl
  have hgenerated : ∀ result after,
      (generateProject host { engine with state := .operating } params).run (perform host.cwd) fs =
        (.ok result, after) →
      (handle host { engine with state := .operating } params generating.handler).run
        (perform host.cwd) fs = (.ok result, after) := by
    intro result after hrun
    rw [hgenerate]
    exact hrun
  cases hfor : engine.planFor host params with
  | error e =>
    have hfails : Engine.planFor host { engine with state := .operating } params = .error e := hfor
    have hrefuses : planProject host { engine with state := .operating } params = failure e := by
      unfold planProject
      rw [hfails]
    have hgives : (generateProject host { engine with state := .operating } params).run
        (perform host.cwd) fs = (.ok (failure e), fs) := by
      unfold generateProject
      rw [hfails]
      rfl
    have hfailed : (failure e).succeeded = false := by
      rw [failure, OperationResult.succeeded_withDiagnostics, OperationResult.succeeded_failed]
    have hnot : ((failure e).setOperation projectPlan).succeeded = false := hfailed
    refine ⟨_, _, _, _, fs, run_execute_ok hplanning (hplanned _ hrefuses),
      run_execute_ok hgenerating (hgenerated _ _ hgives),
      ⟨⟨rfl, rfl⟩, iff_of_false (by rw [hnot]; simp) ?_, fun _ ↦ ⟨hfailed, ?_, rfl⟩, fun _ hok ↦ ?_⟩⟩
    · rintro ⟨-, plan, hok⟩
      rw [hfor] at hok
      cases hok
    · rw [OperationResult.unnamed_setOperation, OperationResult.unnamed_setOperation]
    · rw [hnot] at hok
      cases hok
  | ok plan =>
    have hmakes : Engine.planFor host { engine with state := .operating } params = .ok plan := hfor
    have hgives : planProject host { engine with state := .operating } params =
        (OperationResult.ok plan.toValue).withDiagnostics plan.diagnostics := by
      unfold planProject
      rw [hmakes]
    have hsucceeds : ((OperationResult.ok plan.toValue).withDiagnostics
        plan.diagnostics).succeeded = true := by
      rw [OperationResult.succeeded_withDiagnostics, OperationResult.succeeded_ok]
    have hnotes : Notes plan.diagnostics
        ((OperationResult.ok plan.toValue).withDiagnostics plan.diagnostics) :=
      notes_withDiagnostics _ rfl rfl
    obtain ⟨result, after, hrun, hresult, hlands⟩ := run_generateProject hcwd hway hmakes
    refine ⟨_, _, _, _, after, run_execute_ok hplanning (hplanned _ hgives),
      run_execute_ok hgenerating (hgenerated _ _ hrun),
      ⟨⟨?_, ?_⟩, iff_of_true hsucceeds ⟨hadmits, plan, hfor⟩, fun hnot ↦ ?_, fun other _ hother ↦ ?_⟩⟩
    · exact hresult.1.trans hnotes.1.symm
    · exact hresult.2.trans hnotes.2.symm
    · have hok : (((OperationResult.ok plan.toValue).withDiagnostics
          plan.diagnostics).setOperation projectPlan).succeeded = true := hsucceeds
      rw [hok] at hnot
      cases hnot
    · obtain rfl : plan = other := Except.ok.inj (hfor.symm.trans hother)
      refine ⟨?_, ⟨hlands.exact, hlands.report, hlands.whole, hlands.outside, hlands.failed⟩⟩
      rw [OperationResult.withDiagnostics_eq]
      rfl

/-- A refusal of `project.plan` is that of `project.generate`. After a plan, the workspace is
generated exactly when its place is vacant and no step is in the way of another one; it is the one
that the plan lays out, and the report counts the steps of the plan. -/
theorem plan_foretells (hreach : Runs (Serves step) (create config) events engine)
    (hcwd : ∀ c ∈ host.cwd, Plain c) (hway : WayClear (requestedTarget host params) fs) :
    ∃ planned engine₁ result engine₂ after,
      (engine.execute host projectPlan params).run (perform host.cwd) fs =
        (.ok (planned, engine₁), fs) ∧
      engine.generate host params fs = (.ok (result, engine₂), after) ∧
      Foretells host engine params fs planned result after :=
  (hreach.invariant (fun _ _ _ hequipped ↦ hequipped.serves) (equipped_create config)).foretells
    hcwd hway

theorem sample_foretells : ∃ planned engine₁ result engine₂ after,
    (sampleEngine.execute sampleHost projectPlan (sampleRequest "b")).run (perform sampleHost.cwd)
      .bare = (.ok (planned, engine₁), .bare) ∧
    sampleEngine.generate sampleHost (sampleRequest "b") .bare = (.ok (result, engine₂), after) ∧
    Foretells sampleHost sampleEngine (sampleRequest "b") .bare planned result after := by
  obtain ⟨events, hruns⟩ := runs_sampleEngine
  exact plan_foretells hruns (by decide) fun ds hds ↦ .inl (direct_of_plain (by decide) ds hds)

end Engine

end SquaredPg
