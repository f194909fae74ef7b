import SquaredPg.DryRun
import SquaredPg.Workflow

namespace SquaredPg

open Ascii Program

namespace Engine

open FilesystemService FileSystem

variable {host : Host} {config : EngineConfig} {engine : Engine} {params : Value} {operation : Bytes}

theorem generate_of_builtin : ∀ found ∈ builtinOperations, found.handler = .projectGenerate →
    found.descriptor.id = projectGenerate := by decide +kernel

theorem Furnished.handler (h : engine.Furnished) {found : Operation}
    (hfound : engine.findOperation operation = some found) (hhandler : found.handler = .projectGenerate) :
    operation = projectGenerate := by
  have hid : found.descriptor.id = operation := by simpa using List.find?_some hfound
  rw [← hid, generate_of_builtin found (h.builtin hfound) hhandler]

theorem Furnished.execute_readsOnly (h : engine.Furnished) (hother : operation ≠ projectGenerate) :
    (engine.execute host operation params).CallsOnly ReadsOnly := by
  unfold execute
  cases hadmission : engine.admission operation params with
  | error e => trivial
  | ok found =>
    obtain ⟨-, hfound, -⟩ := admission_eq_ok.mp hadmission
    refine callsOnly_bind (handle_readsOnly fun hhandler ↦ ?_) fun _ ↦ trivial
    exact hother (h.handler hfound hhandler)

/-- The engine of a process that has started it, whether it came up or not. -/
@[irreducible] def startedEngine (host : Host) (config : EngineConfig) : Engine := ((create config).initialize_ host).2

theorem initialize_serves {S : Type} (step : (op : FsOp) → S → Option (FsAnswer op) → S → Prop)
    (host : Host) (engine : Engine) (s : S) : Serves step engine
      ⟨engine, .initialize_, (engine.initialize_ host).1, (engine.initialize_ host).2⟩
      (engine.initialize_ host).2 := by
  refine ⟨rfl, rfl, host, s, s, ?_⟩
  change Exec step (pure (engine.initialize_ host)) s (.ok (engine.initialize_ host)) s
  exact .done _ _

theorem furnished_started (host : Host) (config : EngineConfig) :
    (startedEngine host config).Furnished := by
  unfold startedEngine
  exact (furnished_create config).serves
    (initialize_serves (Behaves host.cwd fun _ ↦ True) host (create config) .bare)

theorem equipped_started (host : Host) (config : EngineConfig) :
    (startedEngine host config).Equipped := by
  unfold startedEngine
  exact (equipped_create config).serves
    (initialize_serves (Behaves host.cwd fun _ ↦ True) host (create config) .bare)

theorem initialize_ready_iff (h : engine.state = .created) :
    (engine.initialize_ host).1.succeeded = true ↔ (engine.initialize_ host).2.state = .ready := by
  have hstart : engine.initialize_ host = engine.registered.start host := if_neg (not_not.mpr h)
  rw [hstart]
  generalize engine.registered = filled
  rcases start_cases host filled with ⟨hfailed, hengine⟩ | ⟨index, diagnostics, hok, hengine⟩
  · rw [hfailed, hengine]
    exact iff_of_false (by simp) (by simp)
  · rw [hok, hengine]
    exact iff_of_true rfl rfl

theorem shutdown_succeeded (h : engine.state = .ready) : engine.shutdown.1.succeeded = true := by
  rw [shutdown, if_neg (by simp [h])]
  exact OperationResult.succeeded_ok _

end Engine

namespace Workflow

open Args Engine FilesystemService

variable {host : Host} {surroundings : Surroundings} {parsed : Parsed} {engine : Engine}
  {argv : List Bytes}

theorem calling_readsOnly (h : engine.Furnished) {operation : String}
    (hother : ascii operation ≠ projectGenerate) (parameters : LuaValue) (print : LuaValue → Exit) :
    (calling host surroundings engine operation parameters print).CallsOnly ReadsOnly := by
  unfold calling call
  refine callsOnly_bind (callsOnly_bind (h.execute_readsOnly hother) fun _ ↦ trivial) fun answer ↦ ?_
  obtain ⟨data, later⟩ := answer
  cases data <;> trivial

theorem resolving_ne {id : Bytes} {operation : String} (h : resolving id = some operation) :
    ascii operation ≠ projectGenerate := by
  unfold resolving at h
  dsimp only at h
  split_ifs at h
  all_goals
    obtain rfl := Option.some.inj h
    decide

theorem command_readsOnly (h : engine.Furnished) {name : Bytes} (hnew : name ≠ ascii "new")
    (hhost : name ∉ hostCommands) :
    (command host surroundings name parsed engine).CallsOnly ReadsOnly := by
  have hcalling := @calling_readsOnly host surroundings engine h
  unfold command
  split_ifs
  · exact hcalling (by decide) _ _
  · exact hcalling (by decide) _ _
  · exact hcalling (by decide) _ _
  · unfold showCommand
    cases parsed.positional.head? with
    | none => trivial
    | some id =>
      dsimp only
      cases hresolving : resolving id with
      | none => trivial
      | some operation => exact hcalling (resolving_ne hresolving) _ _
  · unfold inspect
    cases parsed.positional.head? with
    | none => trivial
    | some workspace => exact hcalling (by decide) _ _
  · unfold verify
    cases parsed.positional.head?.or surroundings.enclosing with
    | none => trivial
    | some workspace => exact hcalling (by decide) _ _
  · unfold plan onConfiguration
    cases parsed.positional.head? with
    | none => trivial
    | some name =>
      dsimp only
      cases buildConfig surroundings.chunk parsed name with
      | error exit => trivial
      | ok config => exact hcalling (by decide) _ _
  · trivial

theorem run_of_command {name : Bytes} (hcommand : (parse argv).command = some name)
    (hhelp : (parse argv).options (ascii "help") = none) (hname : name ≠ ascii "help") :
    run host surroundings argv engine =
      if (parse argv).errors ≠ [] then pure (.returns 2, engine)
      else command host surroundings name (parse argv) engine := by
  unfold run
  generalize parse argv = parsed at hcommand hhelp
  dsimp only
  by_cases herrors : parsed.errors = []
  · rw [if_neg (not_not.mpr herrors), if_neg (not_not.mpr herrors), hcommand, hhelp,
      if_neg (by simp), if_neg (by simpa using hname)]
  · rw [if_pos herrors, if_pos herrors]

/-- The commands that neither generate a workspace nor leave the engine aside. -/
def Consults (argv : List Bytes) : Prop :=
  ∀ name, (parse argv).command = some name → name ≠ ascii "new" ∧ name ∉ hostCommands

theorem run_readsOnly (h : engine.Furnished) (hargv : Consults argv) :
    (run host surroundings argv engine).CallsOnly ReadsOnly := by
  unfold run
  dsimp only
  split_ifs
  · trivial
  · trivial
  · trivial
  · trivial
  · cases hcommand : (parse argv).command with
    | none => trivial
    | some name =>
      obtain ⟨hnew, hhost⟩ := hargv name hcommand
      exact command_readsOnly h hnew hhost

end Workflow

open Engine FilesystemService FileSystem Workflow

variable {host : Host} {surroundings : Surroundings} {config : EngineConfig} {argv : List Bytes}
  {fs fs' : FileSystem}

theorem run_sqpg {exit : Exit} {engine : Engine} (hready : (startedEngine host config).state = .ready)
    (hrun : (run host surroundings argv (startedEngine host config)).run (perform host.cwd) fs =
      (.ok (exit, engine), fs')) :
    (sqpg host surroundings config argv).run (perform host.cwd) fs =
      (.ok (exitStatus exit engine.shutdown.1), fs') := by
  have hup := @initialize_ready_iff host (create config) rfl
  unfold startedEngine at hready hrun
  unfold sqpg serveWorkflow
  generalize (create config).initialize_ host = started at hready hrun hup ⊢
  rw [if_neg (by simp [hup.mpr hready]), run_bind, hrun]
  rfl

theorem run_sqpg_of_unready (hready : (startedEngine host config).state ≠ .ready) :
    (sqpg host surroundings config argv).run (perform host.cwd) fs = (.ok 1, fs) := by
  have hup := @initialize_ready_iff host (create config) rfl
  unfold startedEngine at hready
  unfold sqpg serveWorkflow
  generalize (create config).initialize_ host = started at hready hup ⊢
  rw [if_pos (by simpa using fun h ↦ hready (hup.mp h))]
  rfl

theorem sqpg_readsOnly (h : Consults argv) :
    (sqpg host surroundings config argv).CallsOnly ReadsOnly := by
  have hfurnished := furnished_started host config
  unfold startedEngine at hfurnished
  unfold sqpg
  generalize (create config).initialize_ host = started at hfurnished
  unfold serveWorkflow
  split_ifs
  · trivial
  · exact callsOnly_bind (run_readsOnly hfurnished h) fun _ ↦ trivial

/-- Whatever fails, a process leaves the file system as it is unless its command is `new` or one that
does not call the engine. -/
theorem sqpg_consults {trusted : FsOp → Prop} {out : Outcome Empty ℕ} (h : Consults argv)
    (hexec : Exec (Behaves host.cwd trusted) (sqpg host surroundings config argv) fs out fs') :
    fs' = fs := by
  have hreads : (sqpg host surroundings config argv).CallsOnly ReadsOnly := sqpg_readsOnly h
  generalize sqpg host surroundings config argv = program at hreads hexec
  have hmeets := hexec.sound (wp_unchanged (fun _ _ _ _ h hstep ↦ h.same hstep) hreads fs)
  cases out <;> exact hmeets

/-- A terminal without colours, outside of any workspace. -/
def plainSurroundings : Surroundings where
  runtime := plainRuntime
  colours := false
  chunk _ := .fails
  enclosing := none
  hostCommand _ _ := pure (.returns 0)

def verifyArguments : List Bytes := ["verify", "."].map ascii

/-- A workspace is verified while nothing can be opened for writing. -/
theorem verify_consults :
    ((sqpg sampleHost plainSurroundings sampleConfig verifyArguments).run
      (TransactionService.withoutFiles sampleHost.cwd) TransactionService.workspaceDisk).2 =
        TransactionService.workspaceDisk := by
  have hconsults : Consults verifyArguments := by
    intro name hname
    obtain rfl : ascii "verify" = name := Option.some.inj hname
    decide
  exact sqpg_consults hconsults
    (exec_run (TransactionService.withoutFiles_behaves sampleHost.cwd ⟨true, []⟩) _ _)

end SquaredPg
