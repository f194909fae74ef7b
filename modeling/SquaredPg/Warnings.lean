import SquaredPg.Lifecycle

namespace SquaredPg

open Ascii Program

namespace OperationResult

variable {result : OperationResult} {diagnostics : List Diagnostic} {diagnostic : Diagnostic}
  {operation : Bytes}

theorem withDiagnostics_eq : result.withDiagnostics diagnostics =
    { result with
      diagnostics := result.diagnostics ++ diagnostics.filter fun d ↦ d.severity ≠ .warning
      warnings := result.warnings ++ diagnostics.filter fun d ↦ d.severity = .warning
      status := if result.status = .success ∧ ∃ d ∈ diagnostics, d.severity = .warning then .warning
        else result.status } := by
  induction diagnostics generalizing result with
  | nil => simp [withDiagnostics]
  | cons d diagnostics ih =>
    rw [withDiagnostics, List.foldl_cons, ← withDiagnostics, ih]
    by_cases hd : d.severity = .warning
    · cases hstatus : result.status <;> simp [hd, addWarning, hstatus]
    · simp [hd, addDiagnostic]

@[simp] theorem setOperation_warnings :
    (result.setOperation operation).warnings = result.warnings := rfl

@[simp] theorem setOperation_diagnostics :
    (result.setOperation operation).diagnostics = result.diagnostics := rfl

@[simp] theorem setOperation_status : (result.setOperation operation).status = result.status := rfl

end OperationResult

namespace Engine

open FilesystemService MetadataService TransactionService

def readRows (root : HostPath) : List Value → FsProgram (List (Value × Result Bytes))
  | [] => pure []
  | row :: rows =>
    if rowPath row = [] then readRows root rows
    else do
      let content ← attempt (readFile (below root (rowPath row)))
      let rest ← readRows root rows
      pure ((row, content) :: rest)

def examined (audit : Audit) (read : Value × Result Bytes) : Audit :=
  examine read.1 read.2 { audit with checked := audit.checked + 1 }

/-- A result, the diagnostics that the handler and the services pushed on their way to it, and the
rows that were read for it. -/
structure Report where
  result : OperationResult
  produced : List Diagnostic := []
  reads : List (Value × Result Bytes) := []

def verifyRows (params : Value) : FsProgram Report := do
  let text ← readFile (recordOf (verifyRoot params))
  match jsonParse text with
  | .error e => fail e
  | .ok record =>
    match (record.find (ascii "provenance")).bind Value.asArray with
    | none => fail (provenanceAbsent (verifyRoot params))
    | some table => do
      let reads ← readRows (verifyRoot params) table
      let audit := reads.foldl examined {}
      pure ⟨verifyReport (verifyRoot params) audit, audit.diagnostics, reads⟩

variable {host : Host} {engine engine' : Engine} {params : Value} {root : HostPath}

theorem foldlM_auditRow (root : HostPath) (table : List Value) (audit : Audit) :
    table.foldlM (auditRow root) audit =
      readRows root table >>= fun reads ↦ pure (reads.foldl examined audit) := by
  induction table generalizing audit with
  | nil => rfl
  | cons row table ih =>
    rw [List.foldlM_cons, auditRow, readRows]
    split_ifs with hpath
    · exact ih audit
    · simp only [bind_assoc, pure_eq, done_bind, ih, List.foldl_cons]
      rfl

theorem workspaceVerify_eq (params : Value) :
    workspaceVerify params = verifyRows params >>= fun report ↦ pure report.result := by
  simp only [workspaceVerify, verifyRows, bind_assoc]
  refine congrArg _ (funext fun text ↦ ?_)
  cases jsonParse text with
  | error e => rfl
  | ok record =>
    simp only [verifyRecord]
    cases (record.find (ascii "provenance")).bind Value.asArray with
    | none => rfl
    | some table => simp only [foldlM_auditRow, bind_assoc, pure_eq, done_bind]

def remarks {α : Type} (resolved : Result (α × List Diagnostic)) : List Diagnostic :=
  (resolved.toOption.map Prod.snd).getD []

section Handlers

variable (host : Host) (engine : Engine) (params : Value)

def resolveRemarks (service : TypedService) : List Diagnostic :=
  match ResourceRef.parse (params.stringOr (ascii "id") []) with
  | none => []
  | some ref => remarks (service.resolve (engine.resources host) engine.capabilities ref
      { platforms := configStrings params (ascii "platforms")
        frameworkVersion := params.stringOr (ascii "framework") []
        templateId := (ResourceId.parse (params.stringOr (ascii "template") [])).getD .empty })

def setRemarks : List Diagnostic :=
  match resolveSet (engine.resources host) engine.capabilities engine.config.engineVersion params with
  | .error e => e.diagnostics
  | .ok (_, diagnostics) => diagnostics

def planRemarks : List Diagnostic :=
  match engine.planFor host params with
  | .error e => e.diagnostics
  | .ok plan => plan.diagnostics

/-- The handlers, with what they collect on their way. -/
def collect : Handler → EngineProgram Report
  | .resolve service =>
    pure ⟨engine.resolveResource host params service, engine.resolveRemarks host params service, []⟩
  | .projectResolve => pure ⟨engine.resolveProject host params, engine.setRemarks host params, []⟩
  | .projectPlan => pure ⟨engine.planProject host params, engine.planRemarks host params, []⟩
  | .projectGenerate => do
    let result ← engine.generateProject host params
    pure ⟨result, engine.planRemarks host params, []⟩
  | .workspaceVerify => do
    match ← attempt (verifyRows params) with
    | .ok report => pure report
    | .error error => pure ⟨.failed error, [], []⟩
  | handler => do
    let result ← engine.handle host params handler
    pure ⟨result, [], []⟩

/-- `execute` with what the handler collects; a call that reaches no handler collects nothing. -/
def executeCollecting (operation : Bytes) : EngineProgram (Report × Engine) :=
  match engine.admission operation params with
  | .error error => pure (⟨.failed error, [], []⟩, (engine.answer (.failed error)).2)
  | .ok found => do
    let report ← { engine with state := .operating }.collect host params found.handler
    let result := report.result.setOperation operation
    pure ({ report with result }, ({ engine with state := .ready }.answer result).2)

end Handlers

theorem attempt_bind {ε ε' α β : Type} (p : Program FsOp FsAnswer ε α) (f : α → β) :
    (attempt (p >>= fun a ↦ pure (f a)) : Program FsOp FsAnswer ε' (Except ε β)) =
      attempt p >>= fun r ↦ pure (r.map f) := by
  induction p with
  | done a => rfl
  | fail e => rfl
  | call op next ih => exact congrArg (Program.call op) (funext ih)

theorem bind_result {α β : Type} (p : EngineProgram α) (f : α → β) (g : β → α) (h : ∀ a, g (f a) = a) :
    (p >>= fun a ↦ pure (f a)) >>= (fun b ↦ pure (g b)) = p := by
  induction p with
  | done a => exact congrArg Program.done (h a)
  | fail e => rfl
  | call op next ih => exact congrArg (Program.call op) (funext ih)

theorem handle_eq (host : Host) (engine : Engine) (params : Value) (handler : Handler) :
    engine.handle host params handler =
      engine.collect host params handler >>= fun report ↦ pure report.result := by
  cases handler
  case workspaceVerify =>
    rw [handle, reported, workspaceVerify_eq, attempt_bind]
    simp only [collect, bind_assoc]
    refine congrArg _ (funext fun r ↦ ?_)
    cases r <;> rfl
  case projectGenerate => exact (bind_result _ _ _ fun _ ↦ rfl).symm
  case workspaceInspect => exact (bind_result _ _ _ fun _ ↦ rfl).symm
  all_goals rfl

theorem execute_eq (host : Host) (engine : Engine) (operation : Bytes) (params : Value) :
    engine.execute host operation params =
      engine.executeCollecting host params operation >>= fun served ↦
        pure (served.1.result, served.2) := by
  unfold execute executeCollecting
  cases engine.admission operation params with
  | error e => rfl
  | ok found => simp only [handle_eq, bind_assoc, pure_eq, done_bind, answer]

/-- Every warning is among the warnings of the result, and a result that carries one is no plain
success. -/
structure Report.Shown (report : Report) : Prop where
  listed : ∀ d ∈ report.produced, d.severity = .warning → d ∈ report.result.warnings
  marked : (∃ d ∈ report.result.diagnostics ++ report.result.warnings, d.severity = .warning) →
    report.result.status ≠ .success

/-- A file that the generator manages is not there, or not as it was recorded. -/
def Alarming (read : Value × Result Bytes) : Prop :=
  rowClass read.1 = .generated ∧ ∀ bytes, read.2 = .ok bytes →
    recordedHash read.1 ≠ [] ∧ toHex (sha256 bytes) ≠ recordedHash read.1

variable {report : Report} {result : OperationResult} {diagnostics : List Diagnostic}
  {reads : List (Value × Result Bytes)} {read : Value × Result Bytes} {audit : Audit}
  {S : Type} {step : (op : FsOp) → S → Option (FsAnswer op) → S → Prop} {operation : Bytes}

theorem shown_withDiagnostics (hwarnings : result.warnings = []) (hdiagnostics : result.diagnostics = []) :
    Report.Shown ⟨result.withDiagnostics diagnostics, diagnostics, reads⟩ := by
  rw [OperationResult.withDiagnostics_eq, hwarnings, hdiagnostics]
  constructor
  · intro d hd hwarning
    simpa using ⟨hd, hwarning⟩
  · intro ⟨d, hd, hwarning⟩
    have hmem : d ∈ diagnostics := by
      simp only [List.nil_append, List.mem_append, List.mem_filter] at hd
      exact hd.elim And.left And.left
    have hsome : ∃ d ∈ diagnostics, d.severity = .warning := ⟨d, hmem, hwarning⟩
    cases result.status <;> simp [hsome]

theorem shown_plain (hwarnings : result.warnings = []) (hdiagnostics : result.diagnostics = []) :
    Report.Shown ⟨result, [], []⟩ := by
  constructor
  · simp
  · simp [hwarnings, hdiagnostics]

theorem examined_diagnostics : (∃ d ∈ (examined audit read).diagnostics, d.severity = .warning) ↔
    (∃ d ∈ audit.diagnostics, d.severity = .warning) ∨ Alarming read := by
  obtain ⟨row, content⟩ := read
  cases content with
  | error e =>
    by_cases hclass : rowClass row = .generated <;>
      simp [examined, examine, Alarming, hclass, or_and_right, exists_or]
  | ok bytes =>
    simp only [examined, examine, Alarming, Except.ok.injEq, forall_eq']
    split_ifs with hhash hsame hclass
    · simp [hhash]
    · simp [hsame]
    · simp [hhash, hsame, hclass, or_and_right, exists_or]
    · simp [hclass]

theorem audited_diagnostics : (∃ d ∈ (reads.foldl examined audit).diagnostics, d.severity = .warning) ↔
    (∃ d ∈ audit.diagnostics, d.severity = .warning) ∨ ∃ read ∈ reads, Alarming read := by
  induction reads generalizing audit with
  | nil => simp
  | cons read reads ih =>
    rw [List.foldl_cons, ih, examined_diagnostics, List.exists_mem_cons_iff, or_assoc]

theorem shown_verifyReport : Report.Shown ⟨verifyReport root (reads.foldl examined {}),
    (reads.foldl examined {}).diagnostics, reads⟩ ↔ ∀ read ∈ reads, ¬ Alarming read := by
  have hall : (∃ d ∈ (reads.foldl examined {}).diagnostics, d.severity = .warning) ↔
      ∃ read ∈ reads, Alarming read := by
    rw [audited_diagnostics]
    simp
  rw [verifyReport, OperationResult.foldl_addDiagnostic]
  constructor
  · intro hshown read hread halarm
    obtain ⟨d, hd, hwarning⟩ := hall.mpr ⟨read, hread, halarm⟩
    exact absurd (hshown.listed d hd hwarning) (by simp [OperationResult.ok])
  · intro hcalm
    have hnone : ¬ ∃ d ∈ (reads.foldl examined {}).diagnostics, d.severity = .warning := by
      intro hd
      obtain ⟨read, hread, halarm⟩ := hall.mp hd
      exact hcalm read hread halarm
    constructor
    · exact fun d hd hwarning ↦ absurd ⟨d, hd, hwarning⟩ hnone
    · intro hlisted
      obtain ⟨d, hd, hwarning⟩ := hlisted
      exact absurd ⟨d, by simpa [OperationResult.ok] using hd, hwarning⟩ hnone

def Report.Fair (report : Report) : Prop := report.Shown ↔ ∀ read ∈ report.reads, ¬ Alarming read

theorem fair_of_shown (h : Report.Shown ⟨result, diagnostics, []⟩) :
    Report.Fair ⟨result, diagnostics, []⟩ := iff_of_true h (by simp)

theorem verifyRows_fair (s : S) : (verifyRows params).wp step
    (fun report _ ↦ report.Fair) (fun _ _ ↦ True) (fun _ ↦ True) s := by
  unfold verifyRows
  rw [wp_bind]
  refine wp_always (fun text s' ↦ ?_) (fun _ _ ↦ trivial) (fun _ ↦ trivial) _ s
  cases jsonParse text with
  | error e => trivial
  | ok record =>
    dsimp only
    cases (record.find (ascii "provenance")).bind Value.asArray with
    | none => trivial
    | some table =>
      dsimp only
      rw [wp_bind]
      refine wp_always (fun reads s'' ↦ ?_) (fun _ _ ↦ trivial) (fun _ ↦ trivial) _ s'
      exact shown_verifyReport

theorem generateProject_shown (s : S) : (engine.generateProject host params).wp step
    (fun result _ ↦ Report.Shown ⟨result, engine.planRemarks host params, []⟩) (fun _ _ ↦ True)
    (fun _ ↦ True) s := by
  unfold generateProject planRemarks
  cases engine.planFor host params with
  | error e => exact shown_withDiagnostics rfl rfl
  | ok plan =>
    dsimp only
    rw [wp_bind]
    refine wp_always (fun outcome s' ↦ ?_) (fun _ _ ↦ trivial) (fun _ ↦ trivial) _ s
    cases outcome with
    | error e => exact shown_withDiagnostics rfl rfl
    | ok outcome => exact shown_withDiagnostics rfl rfl

theorem shown_resolveResource (service : TypedService) :
    Report.Shown ⟨engine.resolveResource host params service,
      engine.resolveRemarks host params service, []⟩ := by
  unfold resolveResource resolveRemarks
  dsimp only
  cases ResourceRef.parse (params.stringOr (ascii "id") []) with
  | none => exact shown_plain rfl rfl
  | some ref =>
    dsimp only
    generalize service.resolve (engine.resources host) engine.capabilities ref _ = resolved
    cases resolved with
    | error e => exact shown_plain rfl rfl
    | ok resolved => exact shown_withDiagnostics rfl rfl

theorem shown_resolveProject :
    Report.Shown ⟨engine.resolveProject host params, engine.setRemarks host params, []⟩ := by
  unfold resolveProject setRemarks
  cases resolveSet (engine.resources host) engine.capabilities engine.config.engineVersion params with
  | error e => exact shown_withDiagnostics rfl rfl
  | ok resolved => exact shown_withDiagnostics rfl rfl

theorem shown_planProject :
    Report.Shown ⟨engine.planProject host params, engine.planRemarks host params, []⟩ := by
  unfold planProject planRemarks
  cases engine.planFor host params with
  | error e => exact shown_withDiagnostics rfl rfl
  | ok plan => exact shown_withDiagnostics rfl rfl

theorem shown_listResources : Report.Shown ⟨engine.listResources params, [], []⟩ := by
  unfold listResources
  dsimp only
  split_ifs
  · exact shown_plain rfl rfl
  · split <;> exact shown_plain rfl rfl

theorem shown_validateConfig : Report.Shown ⟨validateConfig params, [], []⟩ := by
  unfold validateConfig
  split <;> exact shown_plain rfl rfl

theorem workspaceInspect_shown (s : S) : (reported (workspaceInspect params)).wp step
    (fun result _ ↦ Report.Shown ⟨result, [], []⟩) (fun _ _ ↦ True) (fun _ ↦ True) s := by
  unfold reported workspaceInspect
  rw [wp_bind, wp_attempt, wp_bind]
  refine wp_always (fun text s' ↦ ?_) (fun _ _ ↦ shown_plain rfl rfl) (fun _ ↦ trivial) _ s
  cases jsonParse text with
  | error e => exact shown_plain rfl rfl
  | ok record => exact shown_plain rfl rfl

theorem collect_fair (handler : Handler) (s : S) : (engine.collect host params handler).wp step
    (fun report _ ↦ report.Fair) (fun _ _ ↦ True) (fun _ ↦ True) s := by
  cases handler with
  | resolve service => exact fair_of_shown (shown_resolveResource service)
  | projectResolve => exact fair_of_shown shown_resolveProject
  | projectPlan => exact fair_of_shown shown_planProject
  | projectGenerate =>
    unfold collect
    rw [wp_bind]
    exact wp_mono (generateProject_shown s) (fun _ _ h ↦ fair_of_shown h) (fun _ _ h ↦ h) fun _ h ↦ h
  | workspaceVerify =>
    unfold collect
    rw [wp_bind, wp_attempt]
    exact wp_mono (verifyRows_fair s) (fun _ _ h ↦ h) (fun _ _ _ ↦ fair_of_shown (shown_plain rfl rfl))
      fun _ h ↦ h
  | workspaceInspect =>
    unfold collect
    rw [wp_bind]
    exact wp_mono (workspaceInspect_shown s) (fun _ _ h ↦ fair_of_shown h) (fun _ _ h ↦ h) fun _ h ↦ h
  | resourceList => exact fair_of_shown shown_listResources
  | configValidate => exact fair_of_shown shown_validateConfig
  | describe => exact fair_of_shown (shown_plain rfl rfl)
  | operations => exact fair_of_shown (shown_plain rfl rfl)

theorem shown_setOperation : Report.Shown { report with result := report.result.setOperation operation } ↔
    report.Shown := by
  constructor
  · exact fun h ↦ ⟨h.listed, h.marked⟩
  · exact fun h ↦ ⟨h.listed, h.marked⟩

theorem executeCollecting_fair (s : S) : (engine.executeCollecting host params operation).wp step
    (fun served _ ↦ served.1.Fair) (fun _ _ ↦ True) (fun _ ↦ True) s := by
  unfold executeCollecting
  cases engine.admission operation params with
  | error e => exact fair_of_shown (shown_plain rfl rfl)
  | ok found =>
    dsimp only
    rw [wp_bind]
    refine wp_mono (collect_fair found.handler s) (fun report _ h ↦ ?_) (fun _ _ h ↦ h) fun _ h ↦ h
    exact shown_setOperation.trans h

/-- In every call of every operation, whatever the system does, the warnings are shown exactly
where verification comes across no generated file that is missing or modified. -/
theorem warnings_shown_iff {s s' : S}
    (h : Exec step (engine.executeCollecting host params operation) s (.ok (report, engine')) s') :
    report.Shown ↔ ∀ read ∈ report.reads, ¬ Alarming read := by
  have hfair := h.sound (executeCollecting_fair s)
  exact hfair

/-- A workspace with a record that lists one generated file, which is not there. -/
def damagedDisk : FileSystem :=
  ((FileTree.bare.put [ascii "w"] .dir).put [ascii "w", ascii ".squared"] .dir).put
    [ascii "w", ascii ".squared", ascii "metadata.json"] (.file ⟨ascii
      "\x7b\"provenance\":[\x7b\"path\":\"a\",\"ownership\":\"generated\"\x7d]\x7d", false⟩)

def verifyParameters : Value := .object [(ascii "workspace", .string (ascii "/w"))]

theorem exists_verification : ∃ report engine' fs',
    Exec (FileSystem.Behaves [] fun _ ↦ True) (readyEngine.executeCollecting bareHost verifyParameters
      (ascii "workspace.verify")) damagedDisk (.ok (report, engine')) fs' ∧
    ((readyEngine.executeCollecting bareHost verifyParameters (ascii "workspace.verify")).run
      (FileSystem.perform []) damagedDisk).1 = .ok (report, engine') := by
  have hexec := FileSystem.exec_perform [] (fun _ ↦ True)
    (readyEngine.executeCollecting bareHost verifyParameters (ascii "workspace.verify")) damagedDisk
  rcases hrun : (readyEngine.executeCollecting bareHost verifyParameters
      (ascii "workspace.verify")).run (FileSystem.perform []) damagedDisk with ⟨_ | ⟨report, after⟩, fs'⟩
  · rename_i e
    exact e.elim
  · rw [hrun] at hexec
    exact ⟨report, after, fs', hexec, rfl⟩

theorem verification_shown_iff : ∃ report engine' fs',
    Exec (FileSystem.Behaves [] fun _ ↦ True) (readyEngine.executeCollecting bareHost verifyParameters
      (ascii "workspace.verify")) damagedDisk (.ok (report, engine')) fs' ∧
    (report.Shown ↔ ∀ read ∈ report.reads, ¬ Alarming read) := by
  obtain ⟨report, engine', fs', hexec, -⟩ := exists_verification
  exact ⟨report, engine', fs', hexec, warnings_shown_iff hexec⟩

theorem missing_not_shown : ∃ report engine' fs',
    Exec (FileSystem.Behaves [] fun _ ↦ True) (readyEngine.executeCollecting bareHost verifyParameters
      (ascii "workspace.verify")) damagedDisk (.ok (report, engine')) fs' ∧
    report.result.status = .success ∧ ¬ report.Shown := by
  obtain ⟨report, engine', fs', hexec, hrun⟩ := exists_verification
  have hfacts : (((readyEngine.executeCollecting bareHost verifyParameters
      (ascii "workspace.verify")).run (FileSystem.perform []) damagedDisk).1.toOption.any fun served ↦
        decide (served.1.result.status = .success) && served.1.result.warnings.isEmpty &&
          served.1.produced.any fun d ↦ d.severity = .warning) = true := by
    decide +kernel
  rw [hrun] at hfacts
  simp only [Except.toOption, Option.any_some, Bool.and_eq_true, decide_eq_true_eq,
    List.isEmpty_iff, List.any_eq_true] at hfacts
  obtain ⟨⟨hstatus, hwarnings⟩, d, hd, hwarning⟩ := hfacts
  refine ⟨report, engine', fs', hexec, hstatus, fun hshown ↦ ?_⟩
  have hlisted := hshown.listed d hd hwarning
  rw [hwarnings] at hlisted
  cases hlisted

end Engine

end SquaredPg
