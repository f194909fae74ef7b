import SquaredPg.Lifecycle
import SquaredPg.Provenance
import SquaredPg.Residue

namespace SquaredPg

open Ascii Fallible Program

namespace Engine

open FileSystem MetadataService TransactionService

variable {S : Type} {step : (op : FsOp) → S → Option (FsAnswer op) → S → Prop} {host : Host}
  {config : EngineConfig} {engine engine' engine'' : Engine} {events : List Event}
  {params params' : Value} {fs fs' after after' : FileSystem} {result result' : OperationResult}

def projectGenerate : Bytes := ascii "project.generate"

/-- What `project.generate` does in surroundings where nothing fails. -/
def generate (host : Host) (engine : Engine) (params : Value) (fs : FileSystem) :
    Except Empty (OperationResult × Engine) × FileSystem :=
  (engine.execute host projectGenerate params).run (perform host.cwd) fs

/-- Where a request asks for the workspace. -/
def requestedTarget (host : Host) (params : Value) : HostPath :=
  targetPath host.cwd (params.stringOr (ascii "output") [])

theorem requestedTarget_wellFormed (hcwd : ∀ c ∈ host.cwd, Plain c) (params : Value) :
    WellFormed (requestedTarget host params) := targetPath_wellFormed hcwd _

def workspaceAt (host : Host) (params : Value) (fs : FileSystem) : Layout Bytes FileData :=
  fs.node.below (targetLocation (requestedTarget host params))

/-- The steps that the transaction takes for a plan, the record included. -/
def transactionSteps (engine : Engine) (plan : GenerationPlan) : List PlanStep :=
  stagedSteps (buildRecord plan engine.config.engineVersion) plan.steps engine.config.fastDurability

theorem handler_projectGenerate {found : Operation} (h : engine.Settled)
    (hfound : engine.findOperation projectGenerate = some found) :
    found.handler = .projectGenerate := by
  have hoperations : engine.operations = [] ∨ engine.operations = builtinOperations :=
    h.registry.imp (congrArg Registry.operations) (congrArg Registry.operations)
  have hbuiltin : ∀ found ∈ builtinOperations, found.descriptor.id = projectGenerate →
      found.handler = .projectGenerate := by decide +kernel
  unfold findOperation at hfound
  rcases hoperations with hnil | hall
  · rw [hnil] at hfound
    cases hfound
  · rw [hall] at hfound
    exact hbuiltin found (List.mem_of_find?_eq_some hfound)
      (by simpa using List.find?_some hfound)

/-- The operations whose failure goes unseen and shows in the workspace: the probe for a staging
directory, which takes an error for absence, and the flush of a stream that is closed by its
destructor. -/
def Silent (target : HostPath) (op : FsOp) : Prop :=
  op = .exists (stagingPathFor target) ∨ ∃ path content, op = .close path content

/-- A `project.generate` that returns, while operations fail at will unless that goes unseen. -/
def Generates (host : Host) (engine : Engine) (params : Value) (fs : FileSystem)
    (result : OperationResult) (engine' : Engine) (after : FileSystem) : Prop :=
  Exec (Behaves host.cwd (Silent (requestedTarget host params)))
    (engine.execute host projectGenerate params) fs (.ok (result, engine')) after

def Commits (host : Host) (engine : Engine) (params : Value) (fs after : FileSystem) : Prop :=
  ∃ plan, engine.planFor host params = .ok plan ∧
    (engine.transactionSteps plan).foldlM stepLayout
        (residue host.cwd (requestedTarget host params) fs) =
      some (workspaceAt host params after)

theorem generateProject_wp (hcwd : ∀ c ∈ host.cwd, Plain c) (engine : Engine) (params : Value)
    (fs : FileSystem) :
    (engine.generateProject host params).wp
      (Behaves host.cwd (Silent (requestedTarget host params)))
      (fun result after ↦ result.succeeded = true → Commits host engine params fs after)
      (fun _ _ ↦ True) (fun _ ↦ True) fs := by
  unfold generateProject
  cases hplan : engine.planFor host params with
  | error e =>
    intro hok
    simp [failure] at hok
  | ok plan =>
    obtain ⟨set, diagnostics, hbuilt⟩ := buildPlan_of_planFor hplan
    have htarget : targetOf host.cwd plan = requestedTarget host params := by
      rw [targetOf, workspace_of_planFor hplan, requestedTarget]
    have happly : (apply host.cwd plan (buildRecord plan engine.config.engineVersion)
        engine.config.fastDurability).wp (Behaves host.cwd (Silent (requestedTarget host params)))
        (fun _ after ↦ (engine.transactionSteps plan).foldlM stepLayout
            (residue host.cwd (requestedTarget host params) fs) =
          some (workspaceAt host params after)) (fun _ _ ↦ True) (fun _ ↦ True) fs := by
      unfold workspaceAt transactionSteps
      rw [← htarget]
      exact apply_residue hcwd (inside_of_buildPlan hbuilt) (.inl rfl)
        fun p w ↦ .inr ⟨p, w, rfl⟩
    dsimp only
    rw [wp_bind, wp_attempt]
    refine wp_mono happly (fun outcome after hsteps _ ↦ ⟨plan, hplan, hsteps⟩)
      (fun e after _ hok ↦ ?_) fun _ _ ↦ trivial
    simp at hok

theorem execute_commits (h : engine.Settled) (hcwd : ∀ c ∈ host.cwd, Plain c) (fs : FileSystem) :
    (engine.execute host projectGenerate params).wp
      (Behaves host.cwd (Silent (requestedTarget host params)))
      (fun served after ↦ served.1.succeeded = true → Commits host engine params fs after)
      (fun _ _ ↦ True) (fun _ ↦ True) fs := by
  unfold execute
  cases hadmission : engine.admission projectGenerate params with
  | error e =>
    intro hok
    cases hok
  | ok found =>
    dsimp only
    rw [handler_projectGenerate h (admission_eq_ok.mp hadmission).2.1, wp_bind]
    have hgenerated := generateProject_wp hcwd { engine with state := .operating } params fs
    exact wp_mono hgenerated (fun result after hcommits ↦ hcommits) (fun _ _ _ ↦ trivial)
      fun _ _ ↦ trivial

theorem Generates.commits (hrun : Generates host engine params fs result engine' after)
    (h : engine.Settled) (hcwd : ∀ c ∈ host.cwd, Plain c) (hok : result.succeeded = true) :
    Commits host engine params fs after := by
  have hcommits := hrun.sound (execute_commits h hcwd fs)
  exact hcommits hok

theorem same_steps (hagree : AgreeBut (ascii "output") params params')
    (h : Commits host engine params fs after) (h' : Commits host engine params' fs' after') :
    ∃ plan, engine.planFor host params = .ok plan ∧
      (engine.transactionSteps plan).foldlM stepLayout
          (residue host.cwd (requestedTarget host params) fs) =
        some (workspaceAt host params after) ∧
      (engine.transactionSteps plan).foldlM stepLayout
          (residue host.cwd (requestedTarget host params') fs') =
        some (workspaceAt host params' after') := by
  obtain ⟨plan, hplan, hsteps⟩ := h
  obtain ⟨plan', hplan', hsteps'⟩ := h'
  have hsame : engine.transactionSteps plan' = engine.transactionSteps plan := by
    rw [hagree.planFor hplan hplan']
    rfl
  exact ⟨plan, hplan, hsteps, hsame ▸ hsteps'⟩

theorem workspace_same_of_clear (h : engine.Settled) (hcwd : ∀ c ∈ host.cwd, Plain c)
    (hagree : AgreeBut (ascii "output") params params')
    (hclear : Clear host.cwd (requestedTarget host params).parts.dropLast
      (stagingName (requestedTarget host params)) fs)
    (hclear' : Clear host.cwd (requestedTarget host params').parts.dropLast
      (stagingName (requestedTarget host params')) fs')
    (hrun : Generates host engine params fs result engine' after)
    (hok : result.succeeded = true)
    (hrun' : Generates host engine params' fs' result' engine'' after')
    (hok' : result'.succeeded = true) :
    workspaceAt host params after = workspaceAt host params' after' := by
  obtain ⟨plan, -, hsteps, hsteps'⟩ :=
    same_steps hagree (hrun.commits h hcwd hok) (hrun'.commits h hcwd hok')
  rw [residue_of_clear (requestedTarget_wellFormed hcwd _) hclear] at hsteps
  rw [residue_of_clear (requestedTarget_wellFormed hcwd _) hclear'] at hsteps'
  exact Option.some.inj (hsteps.symm.trans hsteps')

/-- Two generations that differ in the output location commit the same workspace exactly where
what they find at their staging directories makes no difference. -/
theorem generate_same_iff (hcwd : ∀ c ∈ host.cwd, Plain c)
    (hreach : Runs (Serves step) (create config) events engine)
    (hagree : AgreeBut (ascii "output") params params')
    (hrun : Generates host engine params fs result engine' after)
    (hok : result.succeeded = true)
    (hrun' : Generates host engine params' fs' result' engine'' after')
    (hok' : result'.succeeded = true) :
    ∃ plan, engine.planFor host params = .ok plan ∧
      (workspaceAt host params after = workspaceAt host params' after' ↔
        SameResidue (residue host.cwd (requestedTarget host params) fs)
          (residue host.cwd (requestedTarget host params') fs') (engine.transactionSteps plan)) := by
  have hsettled := hreach.invariant (fun _ _ _ hsettled ↦ hsettled.serves) (settled_create config)
  obtain ⟨plan, hplan, hsteps, hsteps'⟩ :=
    same_steps hagree (hrun.commits hsettled hcwd hok) (hrun'.commits hsettled hcwd hok')
  exact ⟨plan, hplan, tree_eq_iff (residue_nil _) (residue_nil _) hsteps hsteps'⟩

/-- A host with one resource, a template that ships one file. -/
def sampleHost : Host where
  cwd := []
  candidates _ := some [ascii "t"]
  openEnvelope _ := .ok
    { kind := ascii "template"
      id := ascii "template.sample"
      version := ascii "1.0.0"
      manifest := (sampleTemplate "\x7b\x7d" ["a"]).cartridge.manifest }
  openRecord _ := .ok (sampleTemplate "\x7b\x7d" ["a"]).cartridge

def sampleConfig : EngineConfig := { resourceRoots := [ascii "r"], fastDurability := true }

def sampleEngine : Engine := ((create sampleConfig).initialize_ sampleHost).2

def sampleRequest (output : String) : Value :=
  (Value.object [(ascii "name", .string (ascii "p")),
    (ascii "template", .string (ascii "template.sample"))]).set (ascii "output")
      (.string (ascii output))

theorem agree_sampleRequest (output output' : String) :
    AgreeBut (ascii "output") (sampleRequest output) (sampleRequest output') := by
  intro k hk
  rw [sampleRequest, sampleRequest, Value.find_set_object, Value.find_set_object, if_neg hk,
    if_neg hk]

theorem runs_sampleEngine : ∃ events,
    Runs (Serves (Behaves [] fun _ ↦ True)) (create sampleConfig) events sampleEngine :=
  ⟨[⟨create sampleConfig, .initialize_, ((create sampleConfig).initialize_ sampleHost).1,
    sampleEngine⟩], .cons ⟨rfl, rfl, sampleHost, .bare, .bare, .done _ _⟩ (.nil _)⟩

def generatesBoth (output output' : String)
    (P : Layout Bytes FileData → Layout Bytes FileData → Bool) : Bool :=
  match sampleEngine.generate sampleHost (sampleRequest output) .bare,
    sampleEngine.generate sampleHost (sampleRequest output') .bare with
  | (.ok (result, _), after), (.ok (result', _), after') =>
    result.succeeded && result'.succeeded &&
      P (workspaceAt sampleHost (sampleRequest output) after)
        (workspaceAt sampleHost (sampleRequest output') after')

theorem generates_of_run (h : engine.generate host params fs = (.ok (result, engine'), after)) :
    Generates host engine params fs result engine' after := by
  have hexec := exec_perform host.cwd (Silent (requestedTarget host params))
    (engine.execute host projectGenerate params) fs
  rw [generate] at h
  rw [h] at hexec
  exact hexec

theorem exists_generated {output output' : String}
    {P : Layout Bytes FileData → Layout Bytes FileData → Bool}
    (h : generatesBoth output output' P = true) : ∃ result result' engine engine' after after',
      Generates sampleHost sampleEngine (sampleRequest output) .bare result engine after ∧
      Generates sampleHost sampleEngine (sampleRequest output') .bare result' engine' after' ∧
      result.succeeded = true ∧ result'.succeeded = true ∧
      P (workspaceAt sampleHost (sampleRequest output) after)
        (workspaceAt sampleHost (sampleRequest output') after') = true := by
  unfold generatesBoth at h
  split at h
  rename_i result engine after result' engine' after' hrun hrun'
  rw [Bool.and_eq_true, Bool.and_eq_true] at h
  exact ⟨result, result', engine, engine', after, after', generates_of_run hrun,
    generates_of_run hrun', h.1.1, h.1.2, h.2⟩

theorem plain_names_same : ∃ result result' engine engine' after after' plan,
    Generates sampleHost sampleEngine (sampleRequest "b") .bare result engine after ∧
    Generates sampleHost sampleEngine (sampleRequest "c/d") .bare result' engine' after' ∧
    sampleEngine.planFor sampleHost (sampleRequest "b") = .ok plan ∧
    (workspaceAt sampleHost (sampleRequest "b") after =
        workspaceAt sampleHost (sampleRequest "c/d") after' ↔
      SameResidue (residue [] (requestedTarget sampleHost (sampleRequest "b")) .bare)
        (residue [] (requestedTarget sampleHost (sampleRequest "c/d")) .bare)
        (sampleEngine.transactionSteps plan)) := by
  have hboth : generatesBoth "b" "c/d" (fun _ _ ↦ true) = true := by decide +kernel
  obtain ⟨result, result', engine, engine', after, after', hrun, hrun', hok, hok', -⟩ :=
    exists_generated hboth
  obtain ⟨events, hruns⟩ := runs_sampleEngine
  obtain ⟨plan, hplan, hsame⟩ := generate_same_iff (by simp [sampleHost]) hruns
    (agree_sampleRequest "b" "c/d") hrun hok hrun' hok'
  exact ⟨result, result', engine, engine', after, after', plan, hrun, hrun', hplan, hsame⟩

/-- A location spelled through its own staging directory leaves a directory in the workspace. -/
theorem detour_left_in_workspace : ∃ result result' engine engine' after after',
    (∃ events, Runs (Serves (Behaves [] fun _ ↦ True)) (create sampleConfig) events sampleEngine) ∧
    AgreeBut (ascii "output") (sampleRequest "b") (sampleRequest ".b.squared-tmp/x/../../b") ∧
    Generates sampleHost sampleEngine (sampleRequest "b") .bare result engine after ∧
    Generates sampleHost sampleEngine (sampleRequest ".b.squared-tmp/x/../../b") .bare result'
      engine' after' ∧
    result.succeeded = true ∧ result'.succeeded = true ∧
    workspaceAt sampleHost (sampleRequest "b") after [ascii "x"] = none ∧
    workspaceAt sampleHost (sampleRequest ".b.squared-tmp/x/../../b") after' [ascii "x"] =
      some .dir := by
  have hboth : generatesBoth "b" ".b.squared-tmp/x/../../b" (fun f g ↦
      f [ascii "x"] = none ∧ g [ascii "x"] = some .dir) = true := by decide +kernel
  obtain ⟨result, result', engine, engine', after, after', hrun, hrun', hok, hok', hx⟩ :=
    exists_generated hboth
  rw [decide_eq_true_eq] at hx
  exact ⟨result, result', engine, engine', after, after', runs_sampleEngine,
    agree_sampleRequest "b" _, hrun, hrun', hok, hok', hx⟩

end Engine

end SquaredPg
