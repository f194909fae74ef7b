import SquaredPg.ConfiguredCommands

namespace SquaredPg

open Ascii Fallible Program

namespace Engine

open FileSystem TransactionService

variable {host : Host} {config : EngineConfig} {engine : Engine} {params : Value} {operation : Bytes}
  {fs fs' : FileSystem}

theorem execute_recalled (result : OperationResult) :
    Engine.execute host operation params { engine with lastResult := result } =
      engine.execute host operation params := by
  have hadmission : Engine.admission { engine with lastResult := result } operation params =
      engine.admission operation params := rfl
  unfold execute
  rw [hadmission]
  cases engine.admission operation params with
  | error e => rfl
  | ok found =>
    dsimp only
    cases found.handler <;> rfl

theorem run_execute_engine {result : OperationResult} {engine' : Engine}
    (h : (engine.execute host operation params).run (perform host.cwd) fs =
      (.ok (result, engine'), fs')) : engine' = { engine with lastResult := result } := by
  have hexec := exec_perform host.cwd (fun _ ↦ True) (engine.execute host operation params) fs
  rw [h] at hexec
  exact hexec.sound (execute_wp host fs)

theorem run_execute_kept {result : OperationResult} {engine' : Engine}
    (h : (engine.execute host operation params).run (perform host.cwd) fs =
      (.ok (result, engine'), fs')) : (engine.execute host operation params).run (perform host.cwd) fs =
        (.ok (result, { engine with lastResult := result }), fs') :=
  run_execute_engine h ▸ h

end Engine

namespace Workflow

open Args Engine FileSystem MetadataService TransactionService

variable {host : Host} {surroundings : Surroundings} {parsed : Parsed} {engine engine' : Engine}
  {argv : List Bytes} {fs fs' : FileSystem} {table : LuaTable} {name : Bytes} {operation : String}
  {parameters : LuaValue} {result : OperationResult} {print : LuaValue → Exit}

structure Grants (host : Host) (surroundings : Surroundings) (engine : Engine) (parsed : Parsed)
    (table : LuaTable) (fs : FileSystem) (plan : GenerationPlan) : Prop where
  admitted : engine.Admits projectPlan (request surroundings table)
  planned : engine.planFor host (request surroundings table) = .ok plan
  shown : verbose parsed = true → Printable plan.steps
  vacant : Vacant fs (requestedTarget host (request surroundings table))
  apart : Apart (engine.transactionSteps plan)

/-- What `new` leaves. -/
structure Leaves (host : Host) (surroundings : Surroundings) (engine : Engine) (parsed : Parsed)
    (table : LuaTable) (fs : FileSystem) (exit : Exit) (after : FileSystem) : Prop where
  whole : ∀ plan, Grants host surroundings engine parsed table fs plan →
    Complete (buildRecord plan engine.config.engineVersion) plan.steps engine.config.fastDurability
        (workspaceAt host (request surroundings table) after) ∧
      KeepsOutside (requestedTarget host (request surroundings table)) fs after
  failed : exit ≠ .returns 0 →
    OnlyAncestors (requestedTarget host (request surroundings table)) fs after

theorem isSome_report_planned {plan : GenerationPlan}
    (h : engine.planFor host (request surroundings table) = .ok plan) (colours : Bool) :
    (reportPlan surroundings.runtime colours (pushValue plan.toValue)).isSome = true ↔
      Printable plan.steps := by
  obtain ⟨set, diagnostics, hbuild⟩ := buildPlan_of_planFor h
  refine isSome_reportPlan fun step hstep hempty ↦ ?_
  have hinside := (inside_of_buildPlan hbuild step hstep).nonempty
  rw [hempty] at hinside
  exact hinside rfl

theorem leaves_ungranted {exit : Exit} {after : FileSystem} (hexit : exit = .returns 1 ∨ exit = .raises)
    (hnone : ∀ plan, ¬ Grants host surroundings engine parsed table fs plan)
    (hafter : OnlyAncestors (requestedTarget host (request surroundings table)) fs after) :
    Settles (∃ plan, Grants host surroundings engine parsed table fs plan) exit ∧
      Leaves host surroundings engine parsed table fs exit after := by
  refine ⟨⟨.inr hexit, iff_of_false ?_ fun ⟨plan, hgrants⟩ ↦ hnone plan hgrants⟩,
    fun plan hgrants ↦ absurd hgrants (hnone plan), fun _ ↦ hafter⟩
  rcases hexit with rfl | rfl <;> simp

theorem run_generating (hequipped : engine.Equipped) (hcwd : ∀ c ∈ host.cwd, Plain c)
    (hway : WayClear (requestedTarget host (request surroundings table)) fs) :
    ∃ exit result after, (generating host surroundings parsed engine table).run (perform host.cwd) fs =
        (.ok (exit, { engine with lastResult := result }), after) ∧
      Settles (∃ plan, Grants host surroundings engine parsed table fs plan) exit ∧
      Leaves host surroundings engine parsed table fs exit after := by
  obtain ⟨planned, engine₁, result, engine₂, after, hplan, hgenerate, hforetells⟩ :=
    hequipped.foretells hcwd hway
  obtain rfl := run_execute_engine hplan
  obtain rfl := run_execute_engine hgenerate
  have hcall : (call host surroundings engine "project.plan" (.table table.entries)).run
      (perform host.cwd) fs = (.ok (if planned.succeeded then some (pushValue planned.data) else none,
        { engine with lastResult := planned }), fs) := run_call hplan
  unfold generating
  rw [run_bind, hcall]
  dsimp only
  cases hok : planned.succeeded with
  | false =>
    refine ⟨_, _, _, rfl, leaves_ungranted (.inl rfl) (fun plan hgrants ↦ ?_) fun _ _ ↦ .inl rfl⟩
    have hyes := hforetells.decided.mpr ⟨hgrants.admitted, plan, hgrants.planned⟩
    rw [hok] at hyes
    cases hyes
  | true =>
    obtain ⟨hadmits, plan, hfor⟩ := hforetells.decided.mp hok
    obtain ⟨hdata, hlands⟩ := hforetells.accepted plan hok hfor
    have hsame : ∀ other, Grants host surroundings engine parsed table fs other → other = plan :=
      fun other hgrants ↦ Except.ok.inj (hgrants.planned.symm.trans hfor)
    have hshows := isSome_report_planned hfor surroundings.colours
    rw [hdata, if_pos rfl]
    dsimp only
    by_cases hraises : verbose parsed = true ∧
        (reportPlan surroundings.runtime surroundings.colours (pushValue plan.toValue)).isNone = true
    · rw [if_pos hraises]
      refine ⟨_, _, _, rfl, leaves_ungranted (.inr rfl) (fun other hgrants ↦ ?_) fun _ _ ↦ .inl rfl⟩
      have hprints := hshows.mpr (hsame other hgrants ▸ hgrants.shown hraises.1)
      rw [Option.isNone_iff_eq_none.mp hraises.2] at hprints
      cases hprints
    · rw [if_neg hraises]
      have hshown : verbose parsed = true → Printable plan.steps := by
        intro hverbose
        rw [not_and, Bool.not_eq_true, Option.isNone_eq_false_iff] at hraises
        exact hshows.mp (hraises hverbose)
      have hagain : (Engine.execute host (ascii "project.generate") (request surroundings table)
          { engine with lastResult := planned }).run (perform host.cwd) fs =
            (.ok (result, { engine with lastResult := result }), after) := by
        rw [execute_recalled]
        exact hgenerate
      refine ⟨_, result, after, run_calling hagain, ?_⟩
      cases hdone : result.succeeded with
      | false =>
        refine leaves_ungranted (.inl rfl) (fun other hgrants ↦ ?_) (hlands.failed hdone)
        obtain rfl := hsame other hgrants
        have hyes := hlands.exact.mpr ⟨hgrants.vacant, hgrants.apart⟩
        rw [hdone] at hyes
        cases hyes
      | true =>
        obtain ⟨hvacant, happart⟩ := hlands.exact.mp hdone
        refine ⟨⟨.inl rfl, iff_of_true rfl ⟨plan, hadmits, hfor, hshown, hvacant, happart⟩⟩,
          fun other hgrants ↦ ?_, fun hnot ↦ absurd rfl hnot⟩
        obtain rfl := hsame other hgrants
        exact ⟨hlands.whole hdone, hlands.outside hdone⟩

/-- How a process ends whose command is `new`, and what it leaves. -/
structure Concludes (host : Host) (surroundings : Surroundings) (engine : Engine) (parsed : Parsed)
    (fs : FileSystem) (status : ℕ) (after : FileSystem) : Prop where
  answers : Answers surroundings engine parsed
    (fun table ↦ ∃ plan, Grants host surroundings engine parsed table fs plan) status
  whole : ∀ table plan, Asks surroundings parsed table →
    Grants host surroundings engine parsed table fs plan →
    Complete (buildRecord plan engine.config.engineVersion) plan.steps engine.config.fastDurability
        (workspaceAt host (request surroundings table) after) ∧
      KeepsOutside (requestedTarget host (request surroundings table)) fs after
  failed : status ≠ 0 → after = fs ∨ ∃ table, Asks surroundings parsed table ∧
    OnlyAncestors (requestedTarget host (request surroundings table)) fs after

end Workflow

open Args Engine FilesystemService FileSystem TransactionService Workflow

variable {host : Host} {surroundings : Surroundings} {config : EngineConfig} {argv : List Bytes}
  {fs : FileSystem}

/-- A process that nothing fails in and whose command is `new` ends with status 0 exactly when the
arguments spell a configuration that the engine plans and the place of the workspace is vacant. The
whole workspace is there then, a leftover staging directory is gone, and directories that the path
goes through are new; otherwise, outside of the staging directory, only directories above are new. -/
theorem sqpg_new (hcwd : ∀ c ∈ host.cwd, Plain c)
    (hcommand : (parse argv).command = some (ascii "new"))
    (hhelp : (parse argv).options (ascii "help") = none)
    (hway : ∀ table, Asks surroundings (parse argv) table →
      WayClear (requestedTarget host (request surroundings table)) fs) :
    ∃ status after, (sqpg host surroundings config argv).run (perform host.cwd) fs =
        (.ok status, after) ∧
      Concludes host surroundings (startedEngine host config) (parse argv) fs status after := by
  have hbody : command host surroundings (ascii "new") (parse argv) (startedEngine host config) =
      onConfiguration surroundings (parse argv) (startedEngine host config)
        (generating host surroundings (parse argv) (startedEngine host config)) := by
    unfold command
    repeat rw [if_neg (by decide : ¬ ascii "new" = _)]
    rw [if_pos rfl, new]
  obtain ⟨status, after, hrun, hanswers, hleft⟩ := sqpg_configured hcommand hhelp (by decide) hbody
    (fun hunready table ⟨plan, hgrants⟩ ↦ hunready hgrants.admitted.1)
    fun hready table hasks ↦ run_generating (equipped_started host config) hcwd (hway table hasks)
  refine ⟨status, after, hrun, hanswers, fun table plan hasks hgrants ↦ ?_, fun hnot ↦ ?_⟩
  · have hzero := hanswers.done.mpr ⟨table, hasks, plan, hgrants⟩
    rcases hleft with ⟨-, hnot⟩ | ⟨other, exit, hother, -, hleaves⟩
    · exact absurd hzero hnot
    · obtain rfl := hasks.unique hother
      exact hleaves.whole plan hgrants
  · rcases hleft with ⟨hsame, -⟩ | ⟨table, exit, hasks, hexit, hleaves⟩
    · exact .inl hsame
    · exact .inr ⟨table, hasks, hleaves.failed fun h ↦ hnot (hexit.mpr h)⟩

def newArguments : List Bytes := ["new", "p", "--template", "template.sample"].map ascii

/-- The workspace is made below the current directory. -/
theorem sample_new : ∃ after,
    (sqpg sampleHost plainSurroundings sampleConfig newArguments).run (perform sampleHost.cwd) .bare =
      (.ok 0, after) ∧
    Concludes sampleHost plainSurroundings (startedEngine sampleHost sampleConfig)
      (parse newArguments) .bare 0 after := by
  have hzero : ((sqpg sampleHost plainSurroundings sampleConfig newArguments).run
      (perform sampleHost.cwd) .bare).1.toOption = some 0 := by decide +kernel
  have hway : ∀ table, Asks plainSurroundings (parse newArguments) table →
      WayClear (requestedTarget sampleHost (request plainSurroundings table)) .bare := by
    rintro table ⟨-, name, hname, hbuild⟩
    obtain rfl : ascii "p" = name := Option.some.inj hname
    obtain rfl := Except.ok.inj hbuild
    exact wayClear_of_straight (by decide) .bare
  obtain ⟨status, after, hrun, hconcludes⟩ :=
    @sqpg_new sampleHost plainSurroundings sampleConfig newArguments .bare (by decide) (by decide)
      (by decide) hway
  rw [hrun] at hzero
  obtain rfl : status = 0 := Option.some.inj hzero
  exact ⟨after, hrun, hconcludes⟩

end SquaredPg
