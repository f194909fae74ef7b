import SquaredPg.Lifecycle
import SquaredPg.Throwing

namespace SquaredPg

open Ascii Program

inductive FileStatus
  | file | directory | missing
  | unknown (ec : SystemError)
  deriving DecidableEq

inductive ReadOutcome
  | content (bytes : Bytes)
  | unopened (ec : SystemError)
  | directory
  | failed (ec : SystemError)
  deriving DecidableEq

abbrev SystemOutcome : FsOp → Type
  | .exists _ | .isDirectory _ => FileStatus
  | .read _ => ReadOutcome
  | .createDirectories _ | .openTruncated _ | .write _ _ | .close _ _ | .addExecutable _
  | .removeAll _ | .rename _ _ | .sync _ => Option SystemError

/-- What the call hands back, unless it throws. `is_directory` is called without an error code, and
the buffer of an opened file is read past the stream that would note a failure. -/
def libraryReply : (op : FsOp) → SystemOutcome op → Option (FsAnswer op)
  | .exists _, .file | .exists _, .directory => some true
  | .exists _, .missing | .exists _, .unknown _ => some false
  | .isDirectory _, .directory => some true
  | .isDirectory _, .file | .isDirectory _, .missing => some false
  | .isDirectory _, .unknown _ => none
  | .read _, .content bytes => some (.content bytes)
  | .read _, .unopened _ => some .unopened
  | .read _, .directory | .read _, .failed _ => none
  | .createDirectories _, ec | .addExecutable _, ec | .removeAll _, ec | .rename _ _, ec => some ec
  | .openTruncated _, ec | .write _ _, ec | .close _ _, ec => some ec.isNone
  | .sync _, _ => some ()

/-- The outcomes that end in an exception. -/
def Throws : (op : FsOp) × SystemOutcome op → Prop
  | ⟨.isDirectory _, .unknown _⟩ => True
  | ⟨.read _, .directory⟩ => True
  | ⟨.read _, .failed _⟩ => True
  | _ => False

theorem libraryReply_isSome (call : (op : FsOp) × SystemOutcome op) :
    (libraryReply call.1 call.2).isSome = true ↔ ¬ Throws call := by
  obtain ⟨op, outcome⟩ := call
  cases op
  case «exists» path => cases outcome <;> simp [libraryReply, Throws]
  case isDirectory path => cases outcome <;> simp [libraryReply, Throws]
  case read path => cases outcome <;> simp [libraryReply, Throws]
  all_goals simp [libraryReply, Throws]

instance (call : (op : FsOp) × SystemOutcome op) : Decidable (Throws call) :=
  decidable_of_iff (¬ (libraryReply call.1 call.2).isSome = true)
    (by rw [libraryReply_isSome, not_not])

def Handler.Touches (handler : Handler) : Prop :=
  handler = .projectGenerate ∨ handler = .workspaceVerify ∨ handler = .workspaceInspect

namespace Engine

/-- The handler makes a relative output absolute, for which it asks for the current directory. -/
def asksDirectory (host : Host) (engine : Engine) (operation : Bytes) (parameters : Value) : Bool :=
  match engine.admission operation parameters with
  | .error _ => false
  | .ok found => found.handler = .projectGenerate ∧
      (engine.planFor host parameters).toOption.any fun plan ↦
        !(HostPath.ofBytes plan.workspace).absolute

/-- `Engine::execute` where the current directory and the calls of the handler come out as given.
An exception leaves the engine as the handler was entered with it. -/
def executeThrowing (host : Host) (directory : Option Location)
    (outcomes : ℕ → (op : FsOp) → SystemOutcome op) (operation : Bytes) (parameters : Value)
    (engine : Engine) : Option OperationResult × Engine :=
  let host := { host with cwd := directory.getD [] }
  if engine.asksDirectory host operation parameters ∧ directory = none then
    (none, { engine with state := .operating })
  else
    match (engine.execute host operation parameters).runThrowing libraryReply outcomes 0 with
    | none => (none, { engine with state := .operating })
    | some (.error e) => e.elim
    | some (.ok (result, engine)) => (some result, engine)

/-- Neither the current directory, where it is asked for, nor a call of the handler throws. -/
structure Undisturbed (host : Host) (directory : Option Location)
    (outcomes : ℕ → (op : FsOp) → SystemOutcome op) (operation : Bytes) (parameters : Value)
    (engine : Engine) : Prop where
  located : engine.asksDirectory { host with cwd := directory.getD [] } operation parameters = true →
    directory ≠ none
  calls : ∀ call ∈ (engine.execute { host with cwd := directory.getD [] } operation
    parameters).met libraryReply outcomes 0, ¬ Throws call

/-- What each handler depends on. A verification and an inspection only read: no file that opens
turns out to be a directory, or fails while it is read. A generation reads nothing: the current
directory can be determined where a plan has a relative output, and so can the status of every path
whose creation has reported an error. The others ask nothing of the system. -/
def Untroubled (host : Host) (directory : Option Location)
    (outcomes : ℕ → (op : FsOp) → SystemOutcome op) (operation : Bytes) (parameters : Value)
    (engine : Engine) : Handler → Prop
  | .workspaceVerify | .workspaceInspect => ∀ path,
      ⟨.read path, .directory⟩ ∉ (engine.execute { host with cwd := directory.getD [] } operation
        parameters).met libraryReply outcomes 0 ∧
      ∀ ec, ⟨.read path, .failed ec⟩ ∉ (engine.execute { host with cwd := directory.getD [] } operation
        parameters).met libraryReply outcomes 0
  | .projectGenerate =>
      (engine.asksDirectory { host with cwd := directory.getD [] } operation parameters = true →
        directory ≠ none) ∧
      ∀ path ec, ⟨.isDirectory path, .unknown ec⟩ ∉ (engine.execute
        { host with cwd := directory.getD [] } operation parameters).met libraryReply outcomes 0
  | _ => True

variable {host : Host} {directory : Option Location}
  {outcomes : ℕ → (op : FsOp) → SystemOutcome op} {operation : Bytes} {parameters : Value}
  {engine engine' : Engine} {result : OperationResult}

theorem state_of_runThrowing
    (h : (engine.execute host operation parameters).runThrowing libraryReply outcomes 0 =
      some (.ok (result, engine'))) : engine' = { engine with lastResult := result } := by
  have hserved := (exec_of_runThrowing h).sound (execute_wp host ())
  exact hserved

theorem runThrowing_execute :
    ((engine.execute host operation parameters).runThrowing libraryReply outcomes 0).isSome = true ↔
      ∀ call ∈ (engine.execute host operation parameters).met libraryReply outcomes 0,
        ¬ Throws call := by
  rw [runThrowing_isSome]
  exact forall₂_congr fun call _ ↦ libraryReply_isSome call

theorem executeThrowing_returns
    (h : engine.Undisturbed host directory outcomes operation parameters) :
    ∃ result, engine.executeThrowing host directory outcomes operation parameters =
      (some result, { engine with lastResult := result }) := by
  have hasks : ¬ (engine.asksDirectory { host with cwd := directory.getD [] } operation parameters ∧
      directory = none) := fun hasks ↦ h.located hasks.1 hasks.2
  obtain ⟨out, hrun⟩ := Option.isSome_iff_exists.mp (runThrowing_execute.mpr h.calls)
  cases out with
  | error e => exact e.elim
  | ok served =>
    obtain ⟨result, after⟩ := served
    refine ⟨result, ?_⟩
    simp only [executeThrowing, if_neg hasks, hrun]
    rw [state_of_runThrowing hrun]

theorem executeThrowing_strands
    (h : ¬ engine.Undisturbed host directory outcomes operation parameters) :
    engine.executeThrowing host directory outcomes operation parameters =
      (none, { engine with state := .operating }) := by
  by_cases hasks : engine.asksDirectory { host with cwd := directory.getD [] } operation parameters ∧
      directory = none
  · simp only [executeThrowing, if_pos hasks]
  · have hrun := mt runThrowing_execute.mp fun hcalls ↦
      h ⟨fun hask hnone ↦ hasks ⟨hask, hnone⟩, hcalls⟩
    simp only [executeThrowing, if_neg hasks]
    rw [Option.not_isSome_iff_eq_none.mp hrun]

theorem undisturbed_of_untouched
    (h : ∀ found, engine.admission operation parameters = .ok found → ¬ found.handler.Touches) :
    engine.Undisturbed host directory outcomes operation parameters := by
  cases hadmission : engine.admission operation parameters with
  | error e =>
    constructor
    · simp [asksDirectory, hadmission]
    · simp [execute, hadmission, met]
  | ok found =>
    obtain ⟨hgenerate, hverify, hinspect⟩ :
        found.handler ≠ .projectGenerate ∧ found.handler ≠ .workspaceVerify ∧
          found.handler ≠ .workspaceInspect := by
      simpa [Handler.Touches] using h found hadmission
    constructor
    · simp [asksDirectory, hadmission, hgenerate]
    · rw [execute, hadmission]
      dsimp only
      cases hhandler : found.handler with
      | projectGenerate => exact absurd hhandler hgenerate
      | workspaceVerify => exact absurd hhandler hverify
      | workspaceInspect => exact absurd hhandler hinspect
      | _ => simp [handle, met]

theorem not_throws_reads {calls : List ((op : FsOp) × SystemOutcome op)}
    (h : ∀ call ∈ calls, FilesystemService.ReadsOnly call.1) :
    (∀ call ∈ calls, ¬ Throws call) ↔
      ∀ path, ⟨.read path, .directory⟩ ∉ calls ∧ ∀ ec, ⟨.read path, .failed ec⟩ ∉ calls := by
  constructor
  · exact fun hquiet path ↦ ⟨fun hmem ↦ hquiet _ hmem trivial, fun ec hmem ↦ hquiet _ hmem trivial⟩
  · rintro huntroubled ⟨op, outcome⟩ hmem hthrows
    obtain ⟨path, rfl⟩ : ∃ path, op = .read path := h _ hmem
    cases outcome with
    | content bytes => exact hthrows
    | unopened ec => exact hthrows
    | directory => exact (huntroubled path).1 hmem
    | failed ec => exact (huntroubled path).2 ec hmem

theorem not_throws_readless {calls : List ((op : FsOp) × SystemOutcome op)}
    (h : ∀ call ∈ calls, FilesystemService.Readless call.1) :
    (∀ call ∈ calls, ¬ Throws call) ↔
      ∀ path ec, ⟨.isDirectory path, .unknown ec⟩ ∉ calls := by
  constructor
  · exact fun hquiet path ec hmem ↦ hquiet _ hmem trivial
  · rintro huntroubled ⟨op, outcome⟩ hmem hthrows
    cases op with
    | read path => exact h _ hmem path rfl
    | isDirectory path =>
      cases outcome with
      | unknown ec => exact huntroubled path ec hmem
      | _ => exact hthrows
    | _ => exact hthrows

theorem callsOnly_execute {Q : FsOp → Prop} {found : Operation}
    (hadmission : engine.admission operation parameters = .ok found)
    (h : ∀ engine' : Engine, (engine'.handle host parameters found.handler).CallsOnly Q) :
    (engine.execute host operation parameters).CallsOnly Q := by
  rw [execute, hadmission]
  exact callsOnly_bind (h _) fun _ ↦ trivial

theorem asksDirectory_of_ne {found : Operation}
    (hadmission : engine.admission operation parameters = .ok found)
    (h : found.handler ≠ .projectGenerate) :
    engine.asksDirectory host operation parameters = false := by
  simp [asksDirectory, hadmission, h]

theorem undisturbed_of_reads {found : Operation}
    (hadmission : engine.admission operation parameters = .ok found)
    (h : found.handler = .workspaceVerify ∨ found.handler = .workspaceInspect) :
    engine.Undisturbed host directory outcomes operation parameters ↔
      ∀ path,
        ⟨.read path, .directory⟩ ∉ (engine.execute { host with cwd := directory.getD [] } operation
          parameters).met libraryReply outcomes 0 ∧
        ∀ ec, ⟨.read path, .failed ec⟩ ∉ (engine.execute { host with cwd := directory.getD [] }
          operation parameters).met libraryReply outcomes 0 := by
  have hother : found.handler ≠ .projectGenerate := by rcases h with h | h <;> simp [h]
  have hreads : (engine.execute { host with cwd := directory.getD [] } operation
      parameters).CallsOnly FilesystemService.ReadsOnly :=
    callsOnly_execute hadmission fun _ ↦ handle_readsOnly hother
  rw [← not_throws_reads (met_of_callsOnly hreads)]
  constructor
  · exact fun hquiet ↦ hquiet.calls
  · exact fun hcalls ↦ ⟨fun hasks ↦ (by simp [asksDirectory_of_ne hadmission hother] at hasks), hcalls⟩

theorem undisturbed_of_generate {found : Operation}
    (hadmission : engine.admission operation parameters = .ok found)
    (h : found.handler = .projectGenerate) :
    engine.Undisturbed host directory outcomes operation parameters ↔
      engine.Untroubled host directory outcomes operation parameters .projectGenerate := by
  have hreadless : (engine.execute { host with cwd := directory.getD [] } operation
      parameters).CallsOnly FilesystemService.Readless := by
    refine callsOnly_execute hadmission fun engine' ↦ ?_
    rw [h]
    exact generateProject_readless
  unfold Untroubled
  rw [← not_throws_readless (met_of_callsOnly hreadless)]
  exact ⟨fun hquiet ↦ ⟨hquiet.located, hquiet.calls⟩, fun huntroubled ↦ ⟨huntroubled.1, huntroubled.2⟩⟩

/-- What the operation depends on is what its handler does. -/
theorem undisturbed_iff {found : Operation}
    (hadmission : engine.admission operation parameters = .ok found) :
    engine.Undisturbed host directory outcomes operation parameters ↔
      engine.Untroubled host directory outcomes operation parameters found.handler := by
  have hidle : ¬ found.handler.Touches →
      engine.Undisturbed host directory outcomes operation parameters := fun htouches ↦
    undisturbed_of_untouched fun other hother ↦ by
      rw [← Except.ok.inj (hadmission.symm.trans hother)]
      exact htouches
  cases hhandler : found.handler with
  | projectGenerate => exact undisturbed_of_generate hadmission hhandler
  | workspaceVerify => exact undisturbed_of_reads hadmission (.inl hhandler)
  | workspaceInspect => exact undisturbed_of_reads hadmission (.inr hhandler)
  | _ => exact iff_of_true (hidle (by simp [Handler.Touches, hhandler])) trivial

/-- An admitted operation hands back a result and leaves the engine ready, exactly where nothing
that its handler asks of the system throws. -/
theorem executeThrowing_iff (hadmits : engine.Admits operation parameters) :
    ((∃ result, (engine.executeThrowing host directory outcomes operation parameters).1 = some result) ∧
        (engine.executeThrowing host directory outcomes operation parameters).2.state = .ready) ↔
      ∀ found, engine.admission operation parameters = .ok found →
        engine.Untroubled host directory outcomes operation parameters found.handler := by
  obtain ⟨hready, found, hfound, hvalid⟩ := hadmits
  have hadmission := admission_eq_ok.mpr ⟨hready, hfound, hvalid⟩
  constructor
  · intro ⟨⟨result, hresult⟩, _⟩ other hother
    refine (undisturbed_iff hother).mp ?_
    by_contra hdisturbed
    rw [executeThrowing_strands hdisturbed] at hresult
    cases hresult
  · intro h
    have hundisturbed := (undisturbed_iff hadmission).mpr (h found hadmission)
    obtain ⟨result, hreturns⟩ := executeThrowing_returns hundisturbed
    rw [hreturns]
    exact ⟨⟨result, rfl⟩, hready⟩

/-- An engine that an exception left is never ready again: it turns down every operation, and only
`shutdown` moves it. -/
theorem stranded_runs {S : Type} {step : (op : FsOp) → S → Option (FsAnswer op) → S → Prop}
    {events : List Event} (h : engine.state = .operating) (hruns : Runs (Serves step) engine events engine') :
    (engine'.state = .operating ∨ engine'.state = .destroyed) ∧
      ∀ event ∈ events, ∀ operation parameters, event.call = .execute operation parameters →
        event.result.succeeded = false := by
  have hstep : ∀ s (event : Event) t, (s.state = .operating ∨ s.state = .destroyed) →
      Serves step s event t → (t.state = .operating ∨ t.state = .destroyed) ∧
        ∀ operation parameters, event.call = .execute operation parameters →
          event.result.succeeded = false := by
    intro s event t hs hserves
    have hbusy : s.state ≠ .ready ∧ s.state ≠ .created := by
      rcases hs with hs | hs <;> simp [hs]
    refine ⟨?_, fun operation parameters hcall ↦ ?_⟩
    · rcases serves_cases hserves with ⟨-, rfl⟩ | ⟨-, hcreated, -⟩ | rfl
      · exact hs
      · exact absurd hcreated hbusy.2
      · exact .inr rfl
    · refine (refused_of_serves hserves ?_).1
      rw [Event.Refused, hcall, hserves.1]
      exact fun hadmits ↦ hbusy.1 hadmits.1
  exact ⟨hruns.invariant (I := fun s ↦ s.state = .operating ∨ s.state = .destroyed)
    (fun s event t hs hserves ↦ (hstep s event t hs hserves).1) (.inl h), hruns.each hstep (.inl h)⟩

def inspectParameters : Value := .object [(ascii "workspace", .string (ascii "/w"))]

theorem readyEngine_admits : readyEngine.Admits (ascii "workspace.inspect") inspectParameters :=
  ⟨by decide +kernel, _, rfl, rfl⟩

def quiet (_ : ℕ) : (op : FsOp) → SystemOutcome op
  | .exists _ | .isDirectory _ => .directory
  | .read _ => .content (ascii "\x7b\x7d")
  | .createDirectories _ | .openTruncated _ | .write _ _ | .close _ _ | .addExecutable _
  | .removeAll _ | .rename _ _ | .sync _ => none

theorem inspect_returns :
    (∃ result, (readyEngine.executeThrowing bareHost none quiet (ascii "workspace.inspect")
      inspectParameters).1 = some result) ∧
    (readyEngine.executeThrowing bareHost none quiet (ascii "workspace.inspect")
      inspectParameters).2.state = .ready := by
  refine (executeThrowing_iff readyEngine_admits).mpr fun found hfound ↦ (undisturbed_iff hfound).mp ?_
  constructor
  · decide +kernel
  · decide +kernel

/-- A directory where the record of a workspace should be strands the engine. -/
def directories (_ : ℕ) : (op : FsOp) → SystemOutcome op
  | .exists _ | .isDirectory _ | .read _ => .directory
  | .createDirectories _ | .openTruncated _ | .write _ _ | .close _ _ | .addExecutable _
  | .removeAll _ | .rename _ _ | .sync _ => none

theorem inspect_strands : readyEngine.Admits (ascii "workspace.inspect") inspectParameters ∧
    ¬ ((∃ result, (readyEngine.executeThrowing bareHost none directories (ascii "workspace.inspect")
        inspectParameters).1 = some result) ∧
      (readyEngine.executeThrowing bareHost none directories (ascii "workspace.inspect")
        inspectParameters).2.state = .ready) := by
  refine ⟨readyEngine_admits, fun h ↦ ?_⟩
  have hstate : (readyEngine.executeThrowing bareHost none directories (ascii "workspace.inspect")
      inspectParameters).2.state = .operating := by decide +kernel
  rw [hstate] at h
  cases h.2

end Engine

end SquaredPg
