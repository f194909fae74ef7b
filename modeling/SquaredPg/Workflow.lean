import SquaredPg.Configuration
import SquaredPg.SessionSafety

namespace SquaredPg

open Ascii Program

/-- What the workflow finds around it. Whether a workspace encloses the current directory is told by
`find_workspace`, and the commands that do not call the engine are left open. -/
structure Surroundings where
  runtime : LuaRuntime
  colours : Bool
  chunk : Bytes → Args.Chunk
  enclosing : Option Bytes
  hostCommand : Bytes → Args.Parsed → EngineProgram Exit

namespace Workflow

open Args

section

variable (host : Host) (surroundings : Surroundings) (parsed : Parsed) (engine : Engine)

/-- `call`: the data of the result, unless the operation fails. -/
def call (operation : String) (parameters : LuaValue) :
    EngineProgram (Option LuaValue × Engine) := do
  let (result, engine) ← engine.execute host (ascii operation)
    (fromLua surroundings.runtime.toLuaLength parameters)
  pure (if result.succeeded then some (pushValue result.data) else none, engine)

def calling (operation : String) (parameters : LuaValue) (print : LuaValue → Exit) :
    EngineProgram (Exit × Engine) := do
  match ← call host surroundings engine operation parameters with
  | (none, engine) => pure (.returns 1, engine)
  | (some data, engine) => pure (print data, engine)

def refusing (status : ℕ) : EngineProgram (Exit × Engine) := pure (.returns status, engine)

def jsonOutput : Bool := (parsed.options (ascii "json")).isSome

def verbose : Bool := (parsed.options (ascii "verbose")).isSome

def printed {α : Type} (report : Option α) : Exit := report.elim .raises fun _ ↦ .returns 0

def describe : EngineProgram (Exit × Engine) :=
  calling host surroundings engine "engine.describe" (.table []) fun _ ↦ .returns 0

def operations : EngineProgram (Exit × Engine) :=
  calling host surroundings engine "engine.operations" (.table []) fun _ ↦ .returns 0

def list : EngineProgram (Exit × Engine) :=
  calling host surroundings engine "resource.list"
    (.table (parsed.positional.head?.elim [] fun kind ↦ [(luaKey "kind", .string kind)])) fun data ↦
      if jsonOutput parsed then printed (data.index (ascii "resources"))
      else printed ((data.index (ascii "resources")).bind (reportResources surroundings.runtime))

def kindCharacter (c : UInt8) : Bool := (97 ≤ c ∧ c ≤ 122) ∨ c = 95

/-- The operation for the kind that `^([a-z_]+)%.` reads in front of the identity. -/
def resolving (id : Bytes) : Option String :=
  let kind := id.takeWhile kindCharacter
  if kind = [] ∨ (id.drop kind.length).head? ≠ some dot then none
  else if kind = ascii "template" then some "template.resolve"
  else if kind = ascii "kit" then some "kit.resolve"
  else if kind = ascii "package" then some "package.resolve"
  else if kind = ascii "asset" then some "asset.resolve"
  else none

def showCommand : EngineProgram (Exit × Engine) :=
  match parsed.positional.head? with
  | none => refusing engine 2
  | some id =>
    match resolving id with
    | none => refusing engine 2
    | some operation =>
      calling host surroundings engine operation
        (.table (LuaTable.ofFields
          [("id", .string id), ("platforms", parsed.option "platform"),
            ("framework", parsed.option "framework"), ("template", parsed.option "template")]).entries)
        fun _ ↦ .returns 0

def inspect : EngineProgram (Exit × Engine) :=
  match parsed.positional.head? with
  | none => refusing engine 2
  | some workspace =>
    calling host surroundings engine "workspace.inspect"
      (.table [(luaKey "workspace", .string workspace)]) fun _ ↦ .returns 0

/-- The status of `verify`: `#(data.findings or {}) > 0 and 1 or 0` -/
def verdict (data : LuaValue) : Exit :=
  match (data.index (ascii "findings")).bind fun findings ↦
    (findings.otherwise (.table [])).size surroundings.runtime.toLuaLength with
  | none => .raises
  | some findings => .returns (if 0 < findings then 1 else 0)

def verify : EngineProgram (Exit × Engine) :=
  match parsed.positional.head?.or surroundings.enclosing with
  | none => refusing engine 2
  | some workspace =>
    calling host surroundings engine "workspace.verify"
      (.table [(luaKey "workspace", .string workspace)]) (verdict surroundings)

def onConfiguration (body : LuaTable → EngineProgram (Exit × Engine)) : EngineProgram (Exit × Engine) :=
  match parsed.positional.head? with
  | none => refusing engine 2
  | some name =>
    match buildConfig surroundings.chunk parsed name with
    | .error exit => pure (exit, engine)
    | .ok config => body config

def plan : EngineProgram (Exit × Engine) :=
  onConfiguration surroundings parsed engine fun config ↦
    calling host surroundings engine "project.plan" (.table config.entries) fun data ↦
      if jsonOutput parsed then .returns 0
      else printed (reportPlan surroundings.runtime surroundings.colours data)

/-- What `commands.new` does with its configuration: the plan comes first, and is shown where this is
asked for. -/
def generating (config : LuaTable) : EngineProgram (Exit × Engine) := do
  match ← call host surroundings engine "project.plan" (.table config.entries) with
  | (none, engine) => pure (.returns 1, engine)
  | (some planned, engine) =>
    if verbose parsed ∧
        (reportPlan surroundings.runtime surroundings.colours planned).isNone then
      pure (.raises, engine)
    else
      calling host surroundings engine "project.generate" (.table config.entries) fun _ ↦ .returns 0

def new : EngineProgram (Exit × Engine) :=
  onConfiguration surroundings parsed engine (generating host surroundings parsed engine)

end

def hostCommands : List Bytes :=
  ["format", "lint", "check", "test", "docs", "dist", "initialize", "promote", "demote", "doctor",
    "selfdestruct", "quarantine"].map ascii

/-- A command and what it is given. -/
def command (host : Host) (surroundings : Surroundings) (name : Bytes) (parsed : Parsed)
    (engine : Engine) : EngineProgram (Exit × Engine) :=
  if name = ascii "describe" then describe host surroundings engine
  else if name = ascii "operations" then operations host surroundings engine
  else if name = ascii "list" then list host surroundings parsed engine
  else if name = ascii "show" then showCommand host surroundings parsed engine
  else if name = ascii "inspect" then inspect host surroundings parsed engine
  else if name = ascii "verify" then verify host surroundings parsed engine
  else if name = ascii "plan" then plan host surroundings parsed engine
  else if name = ascii "new" then new host surroundings parsed engine
  else if name ∈ hostCommands then do
    let exit ← surroundings.hostCommand name parsed
    pure (exit, engine)
  else pure (.returns 2, engine)

/-- The default workflow. -/
def run (host : Host) (surroundings : Surroundings) (argv : List Bytes) (engine : Engine) :
    EngineProgram (Exit × Engine) :=
  let parsed := parse argv
  if parsed.errors ≠ [] then pure (.returns 2, engine)
  else if (parsed.options (ascii "version")).isSome ∧ parsed.command = none then
    pure (.returns 0, engine)
  else if (parsed.options (ascii "help")).isSome ∨ parsed.command = none ∨
      parsed.command = some (ascii "help") then
    pure (.returns (if parsed.command = none then 2 else 0), engine)
  else
    match parsed.command with
    | none => pure (.returns 2, engine)
    | some name => command host surroundings name parsed engine

end Workflow

def exitStatus (exit : Exit) (stopped : OperationResult) : ℕ :=
  match exit with
  | .raises => 1
  | .returns status => if stopped.succeeded = false ∧ status = 0 then 1 else status

/-- What `main` does with the engine that it has started. -/
def serveWorkflow (host : Host) (surroundings : Surroundings) (argv : List Bytes)
    (started : OperationResult × Engine) : EngineProgram ℕ :=
  if started.1.succeeded = false then pure 1
  else do
    let (exit, engine) ← Workflow.run host surroundings argv started.2
    pure (exitStatus exit engine.shutdown.1)

/-- `main`, once it has found the default workflow. -/
@[irreducible] def sqpg (host : Host) (surroundings : Surroundings) (config : EngineConfig) (argv : List Bytes) :
    EngineProgram ℕ :=
  serveWorkflow host surroundings argv ((Engine.create config).initialize_ host)

end SquaredPg
