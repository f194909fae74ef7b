import SquaredPg.Consulting
import SquaredPg.EnclosingWorkspace
import SquaredPg.TamperEvidence

namespace SquaredPg

open Ascii Fallible Program

namespace Engine

open FilesystemService FileSystem MetadataService TransactionService

variable {host : Host} {engine : Engine} {params : Value} {operation : Bytes} {found : Operation}
  {fs : FileSystem} {cwd : Location} {files : List PlanStep} {g : Layout Bytes FileData}

/-- Every file is there, and every one that the generator manages is as it was written. -/
def Intact (files : List PlanStep) (g : Layout Bytes FileData) : Prop :=
  ∀ step ∈ files, ¬ Gone g step ∧ (step.ownership = .generated → ¬ Altered g step)

instance (files : List PlanStep) (g : Layout Bytes FileData) : Decidable (Intact files g) := by
  unfold Intact
  infer_instance

theorem findings_eq_nil : files.filterMap (stepFinding g) = [] ↔ Intact files g := by
  rw [List.filterMap_eq_nil_iff]
  refine forall₂_congr fun step _ ↦ ?_
  unfold stepFinding
  split_ifs with hgone haltered
  · simp [hgone]
  · simp [haltered]
  · simp only [true_iff]
    exact ⟨hgone, fun hclass halter ↦ haltered ⟨halter, hclass⟩⟩

theorem execute_verifying (hadmission : engine.admission operation params = .ok found)
    (hhandler : found.handler = .workspaceVerify) :
    engine.execute host operation params = (do
      let result ← reported (workspaceVerify params)
      pure ({ engine with state := .ready }.answer (result.setOperation operation))) := by
  rw [execute, hadmission]
  dsimp only
  rw [hhandler]
  rfl

theorem execute_throws (hadmission : engine.admission operation params = .ok found)
    (hhandler : found.handler = .workspaceVerify)
    (hrun : (workspaceVerify params).runUntilThrow (performReading cwd) fs = (none, fs)) :
    (engine.execute host operation params).runUntilThrow (performReading cwd) fs = (none, fs) := by
  rw [execute_verifying hadmission hhandler, reported, runUntilThrow_bind, runUntilThrow_bind,
    runUntilThrow_attempt, hrun]
  rfl

theorem execute_returns {report : OperationResult}
    (hadmission : engine.admission operation params = .ok found)
    (hhandler : found.handler = .workspaceVerify)
    (hrun : (workspaceVerify params).runUntilThrow (performReading cwd) fs = (some (.ok report), fs)) :
    (engine.execute host operation params).runUntilThrow (performReading cwd) fs =
      (some (.ok ({ engine with state := .ready }.answer (report.setOperation operation))), fs) := by
  rw [execute_verifying hadmission hhandler, reported, runUntilThrow_bind, runUntilThrow_bind,
    runUntilThrow_attempt, hrun]
  rfl

theorem Equipped.admission_builtin (hequipped : engine.Equipped) (hready : engine.state = .ready)
    (hfind : (builtinOperations.find? fun found ↦ found.descriptor.id = operation) = some found)
    (hvalid : validateParameters found.descriptor params = .ok ()) :
    engine.admission operation params = .ok found := by
  have hoperations : engine.operations = builtinOperations :=
    congrArg Registry.operations (hequipped.ready hready)
  refine admission_eq_ok.mpr ⟨hready, ?_, hvalid⟩
  rw [findOperation, hoperations]
  exact hfind

theorem verify_admitted (hequipped : engine.Equipped) (hready : engine.state = .ready)
    (workspace : Bytes) : ∃ found, engine.admission (ascii "workspace.verify")
      (.object [(ascii "workspace", .string workspace)]) = .ok found ∧
        found.handler = .workspaceVerify :=
  ⟨_, hequipped.admission_builtin hready rfl rfl, rfl⟩

end Engine

namespace Workflow

open Args Engine FilesystemService FileSystem MetadataService TransactionService

variable {host : Host} {surroundings : Surroundings} {config : EngineConfig} {engine : Engine}
  {argv : List Bytes} {fs : FileSystem} {files : List PlanStep} {g : Layout Bytes FileData}

def verifyKeys : List Bytes :=
  ["workspace", "recorded", "missing", "modified", "edited", "unhashed", "conflicts",
    "findings"].map ascii

theorem verifyKeys_texts : ∀ key ∈ verifyKeys, (0 : UInt8) ∉ key := by decide

theorem verifyKeys_apart : verifyKeys.Nodup := by decide

theorem verdict_contentReport (root : HostPath) :
    verdict surroundings (pushValue (contentReport root files g)) =
      .returns (if Intact files g then 0 else 1) := by
  have hindex : (pushValue (contentReport root files g)).index (ascii "findings") =
      some (pushValue (.array (files.filterMap (stepFinding g)))) := by
    unfold contentReport
    exact Fields.index_of_find ⟨by simp [count], verifyKeys_texts, verifyKeys_apart⟩ rfl
  have hnull : ∀ v ∈ files.filterMap (stepFinding g), v ≠ .null := by
    intro v hv
    obtain ⟨step, -, hfound⟩ := List.mem_filterMap.mp hv
    unfold stepFinding at hfound
    split_ifs at hfound
    all_goals
      rw [← Option.some.inj hfound]
      exact Value.noConfusion
  have hsize := size_pushValue surroundings.runtime.toLuaLength hnull
  have htable : (pushValue (.array (files.filterMap (stepFinding g)))).otherwise (.table []) =
      pushValue (.array (files.filterMap (stepFinding g))) := by
    rw [pushValue_array hnull]
    rfl
  rw [verdict, hindex, Option.bind_some, htable, hsize]
  dsimp only
  have hpos : 0 < (files.filterMap (stepFinding g)).length ↔ ¬ Intact files g := by
    rw [List.length_pos_iff, Ne, findings_eq_nil]
  by_cases hintact : Intact files g
  · rw [if_neg fun h ↦ hpos.mp h hintact, if_pos hintact]
  · rw [if_pos (hpos.mpr hintact), if_neg hintact]

theorem fromLua_text (length : LuaLength) (key : String) (text : Bytes) :
    fromLua length (.table [(luaKey key, .string text)]) = .object [(ascii key, .string text)] := by
  have hkey : LuaKey.string (ascii key) ∈ LuaEntries.keys [(luaKey key, LuaValue.string text)] := by
    simp [LuaEntries.keys, luaKey]
  rw [fromLua_table, isSequence_string hkey]
  rfl

theorem run_of_verify {workspace : Bytes} (hcommand : (parse argv).command = some (ascii "verify"))
    (hhelp : (parse argv).options (ascii "help") = none) (herrors : (parse argv).errors = [])
    (hworkspace : (parse argv).positional.head?.or surroundings.enclosing = some workspace) :
    run host surroundings argv engine =
      calling host surroundings engine "workspace.verify"
        (.table [(luaKey "workspace", .string workspace)]) (verdict surroundings) := by
  rw [run_of_command hcommand hhelp (by decide), if_neg (not_not.mpr herrors)]
  unfold command
  repeat rw [if_neg (by decide : ¬ ascii "verify" = _)]
  rw [if_pos rfl, verify, hworkspace]

theorem calling_throws {operation : String} {parameters : LuaValue} {print : LuaValue → Exit}
    (h : (engine.execute host (ascii operation)
      (fromLua surroundings.runtime.toLuaLength parameters)).runUntilThrow (performReading host.cwd) fs =
        (none, fs)) :
    (calling host surroundings engine operation parameters print).runUntilThrow
      (performReading host.cwd) fs = (none, fs) := by
  rw [calling, runUntilThrow_bind, call, runUntilThrow_bind, h]

theorem calling_returns {operation : String} {parameters : LuaValue} {print : LuaValue → Exit}
    {result : OperationResult} {engine' : Engine}
    (h : (engine.execute host (ascii operation)
      (fromLua surroundings.runtime.toLuaLength parameters)).runUntilThrow (performReading host.cwd) fs =
        (some (.ok (result, engine')), fs)) (hok : result.succeeded = true) :
    (calling host surroundings engine operation parameters print).runUntilThrow
      (performReading host.cwd) fs = (some (.ok (print (pushValue result.data), engine')), fs) := by
  rw [calling, runUntilThrow_bind, call, runUntilThrow_bind, h]
  dsimp only
  rw [if_pos hok]
  rfl

end Workflow

open Args Engine FilesystemService FileSystem MetadataService TransactionService Workflow

variable {host : Host} {surroundings : Surroundings} {config : EngineConfig} {argv : List Bytes}
  {fs : FileSystem} {plan : GenerationPlan} {set : ResolvedSet} {request : Value}
  {engineVersion : Version} {diagnostics : List Diagnostic} {fast : Bool} {d : Location}
  {workspace : Bytes} {data : FileData}

/-- A process whose command is `verify` ends in the exception of the engine where a directory is in
the place of a recorded file. Where there is none, and no other content has the digest of a file, it
ends with status 0 when every recorded file is there and those that the generator manages are as they
were written, and otherwise with status 1. -/
theorem sqpg_verify (hready : (startedEngine host config).state = .ready)
    (hcommand : (parse argv).command = some (ascii "verify"))
    (hhelp : (parse argv).options (ascii "help") = none) (herrors : (parse argv).errors = [])
    (hworkspace : (parse argv).positional.head?.or surroundings.enclosing = some workspace)
    (hplan : buildPlan set request engineVersion diagnostics = .ok plan)
    (hdistinct : (claimedPaths set request engineVersion).Nodup)
    (htexts : ∀ text ∈ quotedTexts set request engineVersion, Utf8.valid text = true)
    (hroot : resolve host.cwd fs (.ofBytes workspace) = some d)
    (hdata : fs.node.below d (splitPath kMetadataFile) = some (.file data))
    (hcontent : data.content = jsonWrite (committedRecord plan engineVersion fast) true) :
    (Obstructed (writtenFiles plan.steps) (fs.node.below d) →
      (sqpg host surroundings config argv).runUntilThrow (performReading host.cwd) fs = (none, fs)) ∧
    (¬ Obstructed (writtenFiles plan.steps) (fs.node.below d) →
      (∀ step ∈ writtenFiles plan.steps, ¬ Forged (fs.node.below d) step) →
      (sqpg host surroundings config argv).runUntilThrow (performReading host.cwd) fs =
        (some (.ok (if Intact (writtenFiles plan.steps) (fs.node.below d) then 0 else 1)), fs)) := by
  have hup := @initialize_ready_iff host (create config) rfl
  have hequipped := equipped_started host config
  unfold startedEngine at hready hequipped
  unfold sqpg
  generalize (create config).initialize_ host = started at hready hequipped hup ⊢
  obtain ⟨up, engine⟩ := started
  dsimp only at hready hequipped hup ⊢
  unfold serveWorkflow
  dsimp only
  rw [if_neg (by simp [hup.mpr hready]), run_of_verify hcommand hhelp herrors hworkspace]
  obtain ⟨found, hadmission, hhandler⟩ := verify_admitted hequipped hready workspace
  have hroot' : resolve host.cwd fs (verifyRoot (.object [(ascii "workspace", .string workspace)])) =
      some d := hroot
  have hparams := fromLua_text surroundings.runtime.toLuaLength "workspace" workspace
  refine ⟨fun hdir ↦ ?_, fun hplaces hforged ↦ ?_⟩
  · have hthrow := workspaceVerify_obstructed hplan htexts hroot' hdata hcontent hdir
    have hexecute := @execute_throws host _ _ _ _ _ _ hadmission hhandler hthrow
    rw [← hparams] at hexecute
    rw [runUntilThrow_bind, calling_throws hexecute]
  · obtain ⟨report, hrun, hok, hreport⟩ :=
      workspaceVerify_contents hplan hdistinct htexts hroot' hdata hcontent hplaces hforged
    have hexecute := @execute_returns host _ _ _ _ _ _ _ hadmission hhandler hrun
    rw [← hparams] at hexecute
    have hstatus : ∀ (status : ℕ) (last : OperationResult), exitStatus (.returns status)
        (Engine.shutdown { engine with state := .ready, lastResult := last }).1 = status := by
      intro status last
      rw [exitStatus, shutdown_succeeded rfl]
      exact if_neg fun h ↦ by simp at h
    have hverdict := @verdict_contentReport surroundings (writtenFiles plan.steps) (fs.node.below d)
      (verifyRoot (.object [(ascii "workspace", .string workspace)]))
    rw [← hreport] at hverdict
    rw [runUntilThrow_bind, calling_returns hexecute hok]
    dsimp only [answer]
    change (some (Except.ok (exitStatus (verdict surroundings (pushValue report.data)) _)), fs) = _
    rw [hverdict, hstatus]

/-- `verify` below a workspace in which a file has changed. -/
theorem sample_verify : ∃ plan outcome fs,
    buildPlan sharingSet sampleOutput {} [] = .ok plan ∧
    (apply [] plan (buildRecord plan {}) true).run (perform []) .bare = (.ok outcome, fs) ∧
    (Obstructed (writtenFiles plan.steps)
        ((tampered fs).node.below (targetLocation (targetOf [] plan))) →
      (sqpg sampleHost { plainSurroundings with enclosing := some (ascii "/b") } sampleConfig
        [ascii "verify"]).runUntilThrow (performReading []) (tampered fs) = (none, tampered fs)) ∧
    (¬ Obstructed (writtenFiles plan.steps)
        ((tampered fs).node.below (targetLocation (targetOf [] plan))) →
      (∀ step ∈ writtenFiles plan.steps,
        ¬ Forged ((tampered fs).node.below (targetLocation (targetOf [] plan))) step) →
      (sqpg sampleHost { plainSurroundings with enclosing := some (ascii "/b") } sampleConfig
          [ascii "verify"]).runUntilThrow (performReading []) (tampered fs) =
        (some (.ok (if Intact (writtenFiles plan.steps)
          ((tampered fs).node.below (targetLocation (targetOf [] plan))) then 0 else 1)),
          tampered fs)) := by
  have hgenerates : generates sharingSet sampleOutput [] .bare = true := by decide +kernel
  obtain ⟨plan, outcome, fs, hplan, hrun⟩ := exists_run hgenerates
  have hclaimed : (claimedPaths sharingSet sampleOutput {}).Nodup := by decide +kernel
  obtain ⟨data, hdata, hcontent⟩ := record_of_tampered hplan hclaimed hrun
  have hready : (startedEngine sampleHost sampleConfig).state = .ready := by decide +kernel
  refine ⟨plan, outcome, fs, hplan, hrun, sqpg_verify hready (by decide) (by decide) (by decide)
    (by decide) hplan hclaimed (by decide +kernel) (resolve_sampleWorkspace _ hplan) hdata hcontent⟩

end SquaredPg
