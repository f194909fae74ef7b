import SquaredPg.Consulting

namespace SquaredPg

open Ascii Fallible Program

namespace Workflow

open Args Engine FileSystem

variable {host : Host} {surroundings : Surroundings} {parsed : Parsed} {engine engine' : Engine}
  {fs fs' : FileSystem} {table : LuaTable} {name : Bytes} {operation : String}
  {parameters : LuaValue} {result : OperationResult} {print : LuaValue → Exit}
  {body : LuaTable → EngineProgram (Exit × Engine)} {Done : LuaTable → Prop}

/-- The arguments spell a configuration. -/
structure Asks (surroundings : Surroundings) (parsed : Parsed) (table : LuaTable) : Prop where
  correct : parsed.errors = []
  built : ∃ name, parsed.positional.head? = some name ∧
    buildConfig surroundings.chunk parsed name = .ok table

theorem Asks.unique {other : LuaTable} (h : Asks surroundings parsed table)
    (h' : Asks surroundings parsed other) : table = other := by
  obtain ⟨-, name, hname, hbuild⟩ := h
  obtain ⟨-, name', hname', hbuild'⟩ := h'
  obtain rfl := Option.some.inj (hname.symm.trans hname')
  exact Except.ok.inj (hbuild.symm.trans hbuild')

theorem exit_of_readFile {exit : Exit} (h : readFile surroundings.chunk parsed = .error exit) :
    exit = .returns 2 := by
  unfold readFile at h
  cases hpath : parsed.textAt "config" with
  | none =>
    rw [hpath] at h
    cases h
  | some path =>
    rw [hpath] at h
    dsimp only at h
    cases hloaded : loadConfig surroundings.chunk path with
    | none =>
      rw [hloaded] at h
      exact (Except.error.inj h).symm
    | some file =>
      rw [hloaded] at h
      cases h

theorem exit_of_readParameters {exit : Exit} (h : readParameters parsed = .error exit) :
    exit = .returns 2 := by
  unfold readParameters at h
  dsimp only at h
  split_ifs at h
  · cases h
  · exact (Except.error.inj h).symm

theorem exit_of_refineParameters {exit : Exit} {refinements : LuaEntries} {configured : LuaValue}
    (h : refineParameters refinements configured = .error exit) : exit = .raises := by
  unfold refineParameters at h
  split_ifs at h
  · cases h
  · cases configured with
    | table entries => cases h
    | _ => exact (Except.error.inj h).symm

theorem exit_of_buildConfig {exit : Exit}
    (h : buildConfig surroundings.chunk parsed name = .error exit) :
    exit = .returns 2 ∨ exit = .raises := by
  unfold buildConfig at h
  rcases bind_eq_error.mp h with hread | ⟨file, -, h⟩
  · exact .inl (exit_of_readFile hread)
  rcases bind_eq_error.mp h with hspelled | ⟨refinements, -, h⟩
  · exact .inl (exit_of_readParameters hspelled)
  rcases bind_eq_error.mp h with hrefines | ⟨refined, -, h⟩
  · exact .inr (exit_of_refineParameters hrefines)
  dsimp only at h
  split_ifs at h
  · exact .inl (Except.error.inj h).symm
  · cases h

def Misused (surroundings : Surroundings) (parsed : Parsed) : Prop :=
  parsed.errors ≠ [] ∨ parsed.positional.head? = none ∨ ∃ name,
    parsed.positional.head? = some name ∧
      buildConfig surroundings.chunk parsed name = .error (.returns 2)

theorem Asks.not_misused (h : Asks surroundings parsed table) : ¬ Misused surroundings parsed := by
  obtain ⟨hcorrect, name, hname, hbuild⟩ := h
  rintro (herrors | hnone | ⟨other, hother, hrefused⟩)
  · exact herrors hcorrect
  · rw [hname] at hnone
    cases hnone
  · obtain rfl := Option.some.inj (hname.symm.trans hother)
    rw [hbuild] at hrefused
    cases hrefused

theorem onConfiguration_cases : (∃ exit,
      (if parsed.errors ≠ [] then pure (.returns 2, engine)
        else onConfiguration surroundings parsed engine body) = pure (exit, engine) ∧
      (∀ table, ¬ Asks surroundings parsed table) ∧
      (exit = .returns 2 ∧ Misused surroundings parsed ∨
        exit = .raises ∧ ¬ Misused surroundings parsed)) ∨
    ∃ table, Asks surroundings parsed table ∧
      (if parsed.errors ≠ [] then pure (.returns 2, engine)
        else onConfiguration surroundings parsed engine body) = body table := by
  by_cases herrors : parsed.errors = []
  · rw [if_neg (not_not.mpr herrors)]
    unfold onConfiguration
    cases hname : parsed.positional.head? with
    | none =>
      refine .inl ⟨_, rfl, ?_, .inl ⟨rfl, .inr (.inl hname)⟩⟩
      rintro table ⟨-, name, hsome, -⟩
      rw [hname] at hsome
      cases hsome
    | some name =>
      dsimp only
      cases hbuild : buildConfig surroundings.chunk parsed name with
      | error exit =>
        have hrefused : ∀ other exit', parsed.positional.head? = some other →
            buildConfig surroundings.chunk parsed other = exit' → exit' = .error exit := by
          rintro other exit' hother rfl
          obtain rfl := Option.some.inj (hname.symm.trans hother)
          exact hbuild
        refine .inl ⟨exit, rfl, ?_, ?_⟩
        · rintro table ⟨-, other, hother, hok⟩
          cases hrefused other _ hother hok
        · rcases exit_of_buildConfig hbuild with rfl | rfl
          · exact .inl ⟨rfl, .inr (.inr ⟨name, hname, hbuild⟩)⟩
          · refine .inr ⟨rfl, ?_⟩
            rintro (herror | hnone | ⟨other, hother, hmisused⟩)
            · exact herror herrors
            · rw [hname] at hnone
              cases hnone
            · cases hrefused other _ hother hmisused
      | ok table => exact .inr ⟨table, ⟨herrors, name, hname, hbuild⟩, rfl⟩
  · rw [if_pos herrors]
    exact .inl ⟨_, rfl, fun table hasks ↦ herrors hasks.correct, .inl ⟨rfl, .inl herrors⟩⟩

/-- The status of a process whose command runs on a configuration, where `Done` is what the command
needs of it. -/
structure Answers (surroundings : Surroundings) (engine : Engine) (parsed : Parsed)
    (Done : LuaTable → Prop) (status : ℕ) : Prop where
  used : status = 0 ∨ status = 1 ∨ status = 2
  done : status = 0 ↔ ∃ table, Asks surroundings parsed table ∧ Done table
  misused : status = 2 ↔ engine.state = .ready ∧ Misused surroundings parsed

theorem answers_of_unready (hready : engine.state ≠ .ready) (hdone : ∀ table, ¬ Done table) :
    Answers surroundings engine parsed Done 1 where
  used := .inr (.inl rfl)
  done := iff_of_false (by decide) fun ⟨table, _, h⟩ ↦ hdone table h
  misused := iff_of_false (by decide) fun h ↦ hready h.1

theorem answers_of_unasked {exit : Exit} {stopped : OperationResult} (hready : engine.state = .ready)
    (hnone : ∀ table, ¬ Asks surroundings parsed table)
    (hexit : exit = .returns 2 ∧ Misused surroundings parsed ∨
      exit = .raises ∧ ¬ Misused surroundings parsed) :
    Answers surroundings engine parsed Done (exitStatus exit stopped) := by
  have hundone : ¬ ∃ table, Asks surroundings parsed table ∧ Done table :=
    fun ⟨table, hasks, _⟩ ↦ hnone table hasks
  rcases hexit with ⟨rfl, hmisused⟩ | ⟨rfl, hproper⟩
  · have htwo : exitStatus (.returns 2) stopped = 2 := by simp [exitStatus]
    rw [htwo]
    exact ⟨.inr (.inr rfl), iff_of_false (by decide) hundone, iff_of_true rfl ⟨hready, hmisused⟩⟩
  · exact ⟨.inr (.inl rfl), iff_of_false Nat.one_ne_zero hundone,
      iff_of_false (by simp [exitStatus]) fun h ↦ hproper h.2⟩

/-- A command comes to its end exactly where `p`. -/
def Settles (p : Prop) (exit : Exit) : Prop :=
  (exit = .returns 0 ∨ exit = .returns 1 ∨ exit = .raises) ∧ (exit = .returns 0 ↔ p)

theorem Settles.status {p : Prop} {exit : Exit} {stopped : OperationResult} (h : Settles p exit)
    (hstopped : stopped.succeeded = true) :
    exitStatus exit stopped = 0 ∧ exit = .returns 0 ∨ exitStatus exit stopped = 1 ∧ ¬ p := by
  obtain ⟨rfl | rfl | rfl, hexact⟩ := h
  · simp [exitStatus, hstopped]
  · exact .inr ⟨by simp [exitStatus], fun hp ↦ by cases hexact.mpr hp⟩
  · exact .inr ⟨rfl, fun hp ↦ by cases hexact.mpr hp⟩

theorem answers_of_asked {exit : Exit} {stopped : OperationResult}
    (hstopped : stopped.succeeded = true) (hasks : Asks surroundings parsed table)
    (h : Settles (Done table) exit) :
    Answers surroundings engine parsed Done (exitStatus exit stopped) := by
  have hexact : (∃ other, Asks surroundings parsed other ∧ Done other) ↔ Done table := by
    constructor
    · rintro ⟨other, hother, hdone⟩
      exact hasks.unique hother ▸ hdone
    · exact fun hdone ↦ ⟨table, hasks, hdone⟩
  have hproper : ¬ (engine.state = .ready ∧ Misused surroundings parsed) :=
    fun h ↦ hasks.not_misused h.2
  rcases h.status hstopped with ⟨hzero, hexit⟩ | ⟨hone, hnot⟩
  · rw [hzero]
    exact ⟨.inl rfl, iff_of_true rfl (hexact.mpr (h.2.mp hexit)), iff_of_false (by decide) hproper⟩
  · rw [hone]
    exact ⟨.inr (.inl rfl), iff_of_false (by decide) (hexact.not.mpr hnot),
      iff_of_false (by decide) hproper⟩

/-- The request that a configuration is for the engine. -/
def request (surroundings : Surroundings) (table : LuaTable) : Value :=
  fromLua surroundings.runtime.toLuaLength (.table table.entries)

theorem run_call (h : (engine.execute host (ascii operation)
    (fromLua surroundings.runtime.toLuaLength parameters)).run (perform host.cwd) fs =
      (.ok (result, engine'), fs')) :
    (call host surroundings engine operation parameters).run (perform host.cwd) fs =
      (.ok (if result.succeeded then some (pushValue result.data) else none, engine'), fs') := by
  unfold call
  rw [run_bind, h]
  rfl

theorem run_calling (h : (engine.execute host (ascii operation)
    (fromLua surroundings.runtime.toLuaLength parameters)).run (perform host.cwd) fs =
      (.ok (result, engine'), fs')) :
    (calling host surroundings engine operation parameters print).run (perform host.cwd) fs =
      (.ok (if result.succeeded then print (pushValue result.data) else .returns 1, engine'), fs') := by
  unfold calling
  rw [run_bind, run_call h]
  cases result.succeeded <;> rfl

end Workflow

open Args Engine FileSystem Workflow

variable {host : Host} {surroundings : Surroundings} {config : EngineConfig} {argv : List Bytes}
  {fs : FileSystem} {name : Bytes} {body : LuaTable → EngineProgram (Exit × Engine)}
  {Done : LuaTable → Prop} {Left : LuaTable → Exit → FileSystem → Prop}

theorem sqpg_configured (hcommand : (parse argv).command = some name)
    (hhelp : (parse argv).options (ascii "help") = none) (hname : name ≠ ascii "help")
    (hbody : command host surroundings name (parse argv) (startedEngine host config) =
      onConfiguration surroundings (parse argv) (startedEngine host config) body)
    (hdone : (startedEngine host config).state ≠ .ready → ∀ table, ¬ Done table)
    (hruns : (startedEngine host config).state = .ready → ∀ table, Asks surroundings (parse argv) table →
      ∃ exit result after, (body table).run (perform host.cwd) fs =
          (.ok (exit, { startedEngine host config with lastResult := result }), after) ∧
        Settles (Done table) exit ∧ Left table exit after) :
    ∃ status after,
      (sqpg host surroundings config argv).run (perform host.cwd) fs = (.ok status, after) ∧
      Answers surroundings (startedEngine host config) (parse argv) Done status ∧
      (after = fs ∧ status ≠ 0 ∨ ∃ table exit, Asks surroundings (parse argv) table ∧
        (status = 0 ↔ exit = .returns 0) ∧ Left table exit after) := by
  by_cases hready : (startedEngine host config).state = .ready
  · have hrun := @run_of_command host surroundings (startedEngine host config) argv name hcommand hhelp
      hname
    rw [hbody] at hrun
    rcases @onConfiguration_cases surroundings (parse argv) (startedEngine host config) body with
      ⟨exit, hpure, hnone, hexit⟩ | ⟨table, hasks, hasked⟩
    · rw [hpure] at hrun
      have hruns' : (run host surroundings argv (startedEngine host config)).run (perform host.cwd) fs =
          (.ok (exit, startedEngine host config), fs) := by
        rw [hrun]
        rfl
      have hanswers : Answers surroundings (startedEngine host config) (parse argv) Done
          (exitStatus exit (startedEngine host config).shutdown.1) :=
        answers_of_unasked hready hnone hexit
      refine ⟨_, fs, run_sqpg hready hruns', hanswers, .inl ⟨rfl, fun hzero ↦ ?_⟩⟩
      obtain ⟨table, hasks, -⟩ := hanswers.done.mp hzero
      exact hnone table hasks
    · rw [hasked] at hrun
      obtain ⟨exit, result, after, hafter, hsettles, hleft⟩ := hruns hready table hasks
      rw [← hrun] at hafter
      have hstopped : (Engine.shutdown
          { startedEngine host config with lastResult := result }).1.succeeded = true :=
        shutdown_succeeded hready
      refine ⟨_, after, run_sqpg hready hafter, answers_of_asked hstopped hasks hsettles,
        .inr ⟨table, exit, hasks, ?_, hleft⟩⟩
      rcases hsettles.status hstopped with ⟨hzero, hexit⟩ | ⟨hone, hnot⟩
      · exact iff_of_true hzero hexit
      · exact iff_of_false (by omega) fun hexit ↦ hnot (hsettles.2.mp hexit)
  · exact ⟨1, fs, run_sqpg_of_unready hready, answers_of_unready hready (hdone hready),
      .inl ⟨rfl, Nat.one_ne_zero⟩⟩

end SquaredPg
